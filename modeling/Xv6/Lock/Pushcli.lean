/-
`pushcli` and `popcli` of `spinlock.c` on one CPU, with `acquire`, `release` and `holding` cut into the statements
between them; other CPUs take and give back locks at any time. A CPU that has pushed is not interruptible, and its
interrupt flag is back to what it was when as many pops as pushes have been made, as long as the pushes stay less
than 2^31 ahead: `ncli` is an `int`.
-/
import Xv6.Base.Run
import Mathlib.Algebra.Order.Ring.Int

namespace Xv6.Pushcli

open Base Function

variable {L : Type}

/-! ## The CPU -/

inductive Panic
  | mycpu
  | interruptible
  | popcli
  | acquire
  | release
  deriving DecidableEq, Repr

/-- The interrupt flag, what these functions use of `struct cpu`, the variable of `holding`, and for each lock
`lk->locked` and whether `lk->cpu` is this CPU. -/
structure Cpu (L : Type) where
  fl : Bool
  ncli : Int32 := 0
  intena : Bool := false
  r : Bool := false
  locked : L → Bool
  mine : L → Bool

/-- `mycpu()`, for an access to the record it points to. -/
def mycpu (c : Cpu L) : Except Panic (Cpu L) := if c.fl then .error .mycpu else .ok c

def pushcli (c : Cpu L) : Except Panic (Cpu L) := do
  let eflags := c.fl
  let c ← mycpu { c with fl := false }  -- cli()
  let c ← if c.ncli = 0 then (mycpu c).map ({ · with intena := eflags }) else pure c
  (mycpu c).map fun c => { c with ncli := c.ncli + 1 }

def popcli (c : Cpu L) : Except Panic (Cpu L) := do
  if c.fl then throw .interruptible
  let c ← mycpu c
  let c := { c with ncli := c.ncli - 1 }
  if c.ncli < 0 then throw .popcli
  let c ← mycpu c
  if c.ncli = 0 then (mycpu c).map fun c => if c.intena then { c with fl := true } else c  -- sti()
  else pure c

/-! ## Code -/

/-- The statements of `holding`, `acquire` and `release`. -/
inductive Stmt (L : Type)
  | pushcli
  | popcli
  | readHeld (l : L)  -- r = lock->locked && lock->cpu == mycpu();
  | notHeld  -- if(holding(lk)) panic("acquire");
  | isHeld  -- if(!holding(lk)) panic("release");
  | xchg (l : L)  -- while(xchg(&lk->locked, 1) != 0) spins++;
  | setCpu (l : L)  -- lk->cpu = mycpu();
  | clearCpu (l : L)  -- lk->cpu = 0;
  | unlock (l : L)  -- asm volatile("movl $0, %0" : "+m" (lk->locked) : );
  deriving DecidableEq, Repr

def holding (l : L) : List (Stmt L) := [.pushcli, .readHeld l, .popcli]
def acquire (l : L) : List (Stmt L) := .pushcli :: holding l ++ [.notHeld, .xchg l, .setCpu l]
def release (l : L) : List (Stmt L) := holding l ++ [.isHeld, .clearCpu l, .unlock l, .popcli]

inductive Call (L : Type)
  | pushcli
  | popcli
  | acquire (l : L)
  | release (l : L)
  deriving DecidableEq, Repr

def Call.code : Call L → List (Stmt L)
  | .pushcli => [.pushcli]
  | .popcli => [.popcli]
  | .acquire l => Pushcli.acquire l
  | .release l => Pushcli.release l

/-- The pushes of a call less its pops. -/
def Call.weight : Call L → Int
  | .pushcli | .acquire _ => 1
  | .popcli | .release _ => -1

/-- The CPU, what is left of the call it is in, and the pushes less the pops of the calls so far. -/
structure Sys (L : Type) where
  cpu : Cpu L
  code : List (Stmt L) := []
  depth : Int := 0

/-- The CPU makes a call or goes on in one, or another CPU takes or gives back a lock. -/
inductive Act (L : Type)
  | call (k : Call L)
  | run
  | other (l : L) (locked : Bool)
  deriving DecidableEq, Repr

section

variable [DecidableEq L]

def exec (c : Cpu L) : Stmt L → Except Panic (Cpu L)
  | .pushcli => pushcli c
  | .popcli => popcli c
  | .readHeld l => if c.locked l then (mycpu c).map ({ · with r := c.mine l }) else .ok { c with r := false }
  | .notHeld => if c.r then .error .acquire else .ok c
  | .isHeld => if c.r then .ok c else .error .release
  | .xchg l => .ok { c with locked := update c.locked l true }
  | .setCpu l => (mycpu c).map ({ · with mine := update c.mine l true })
  | .clearCpu l => .ok { c with mine := update c.mine l false }
  | .unlock l => .ok { c with locked := update c.locked l false }

/-- The loop of `acquire` goes round again. -/
def again (c : Cpu L) : Stmt L → Bool
  | .xchg l => c.locked l
  | _ => false

/-- The next statement. -/
def run (s : Sys L) : Except Panic (Sys L) :=
  match s.code with
  | [] => .ok s
  | i :: is => (exec s.cpu i).map ({ s with cpu := ·, code := if again s.cpu i then i :: is else is })

def step (s : Sys L) : Act L → Option (Sys L)
  | .call k => if s.code = [] then some { s with code := k.code, depth := s.depth + k.weight } else none
  | .run => (run s).toOption
  | .other l locked =>
    if s.cpu.mine l then none else some { s with cpu := { s.cpu with locked := update s.cpu.locked l locked } }

end

/-- Interrupts are `b`, and nothing is pushed. -/
def Start (b : Bool) (s : Sys L) : Prop := s.cpu.fl = b ∧ s.cpu.ncli = 0 ∧ s.code = [] ∧ s.depth = 0

/-- The calls so far and this one have no more pops than pushes. -/
def matched (s : Sys L) : Act L → Bool
  | .call k => 0 ≤ s.depth + k.weight
  | _ => true

/-- They have less than 2^31 more pushes than pops. -/
def counted (s : Sys L) : Act L → Bool
  | .call k => s.depth + k.weight < 2 ^ 31
  | _ => true

/-! ## Nesting -/

/-- Inside `d` pushes, with the flag `b` outside. -/
structure Rest (b : Bool) (d : Nat) (c : Cpu L) : Prop where
  le : d ≤ 2 ^ 31
  ncli : c.ncli = Int32.ofNat d
  out : d = 0 → c.fl = b
  deep : 0 < d → c.fl = false ∧ c.intena = b

/-- The statements can be executed inside `d` pushes, and lead to `e`. -/
def Fits : Nat → List (Stmt L) → Nat → Prop
  | d, [], e => d = e
  | d, .pushcli :: is, e => d < 2 ^ 31 ∧ Fits (d + 1) is e
  | d, .popcli :: is, e => 0 < d ∧ Fits (d - 1) is e
  | d, .readHeld _ :: is, e | d, .setCpu _ :: is, e => 0 < d ∧ Fits d is e
  | d, _ :: is, e => Fits d is e

variable {b : Bool} {d e : Nat} {c : Cpu L} {i : Stmt L} {is : List (Stmt L)} {s s' : Sys L}

theorem ofNat_eq_zero (h : d ≤ 2 ^ 31) : Int32.ofNat d = 0 ↔ d = 0 := by
  rw [← Int32.toInt_inj, Int32.toInt_ofNat', Int32.toInt_zero, Int.bmod_def]
  simp only [Int32.size]
  omega

theorem mycpu_eq (h : c.fl = false) : mycpu c = .ok c := by
  rw [mycpu, h]; rfl

theorem pushcli_eq (c : Cpu L) : pushcli c =
    .ok { c with fl := false, intena := if c.ncli = 0 then c.fl else c.intena, ncli := c.ncli + 1 } := by
  by_cases h : c.ncli = 0
  · simp [pushcli, h, mycpu, bind, Except.bind, Except.map]
  · simp [pushcli, h, mycpu, bind, Except.bind, Except.map, pure, Except.pure]

theorem popcli_eq (hfl : c.fl = false) (hn : ¬ c.ncli - 1 < 0) : popcli c =
    .ok { c with fl := decide (c.ncli - 1 = 0) && c.intena, ncli := c.ncli - 1 } := by
  by_cases h : c.ncli - 1 = 0
  · cases hin : c.intena <;> simp [popcli, h, hfl, mycpu, bind, Except.bind, Except.map, hin]
  · simp [popcli, h, hn, hfl, mycpu, bind, Except.bind, pure, Except.pure]

theorem Rest.push (h : Rest b d c) (hd : d < 2 ^ 31) : ∃ c', pushcli c = .ok c' ∧ Rest b (d + 1) c' := by
  refine ⟨_, pushcli_eq c, hd, ?_, nofun, fun _ => ⟨rfl, ?_⟩⟩
  · rw [h.ncli, Int32.ofNat_add]; rfl
  · -- only the outermost push saves the flag
    rw [h.ncli]
    split
    · exact h.out ((ofNat_eq_zero h.le).1 ‹_›)
    · exact (h.deep (Nat.pos_of_ne_zero (mt (ofNat_eq_zero h.le).2 ‹_›))).2

theorem Rest.pop (h : Rest b (d + 1) c) : ∃ c', popcli c = .ok c' ∧ Rest b d c' := by
  obtain ⟨hfl, hin⟩ := h.deep (Nat.succ_pos d)
  have hn : c.ncli - 1 = Int32.ofNat d := by
    rw [h.ncli, Int32.ofNat_add]; exact Int32.add_sub_cancel ..
  have hpos : ¬ c.ncli - 1 < 0 := by
    rw [hn, Int32.lt_iff_toInt_lt, Int32.toInt_ofNat_of_lt h.le, Int32.toInt_zero]; omega
  have hle : d ≤ 2 ^ 31 := le_of_lt h.le
  refine ⟨_, popcli_eq hfl hpos, hle, hn, fun hd => ?_, fun hd => ⟨?_, hin⟩⟩
  · simp [hn, hd, hin]
  · simp [hn, ofNat_eq_zero hle, Nat.pos_iff_ne_zero.1 hd]

theorem fits_call {k : Call L} (hd : d < 2 ^ 31) (he : e < 2 ^ 31) (hw : (e : Int) = d + k.weight) :
    Fits d k.code e := by
  cases k
  all_goals
    simp only [Call.code, acquire, release, holding, List.cons_append, List.nil_append, Fits, Call.weight] at hw ⊢
    omega

section

variable [DecidableEq L]

/-- A statement goes on, or is a panic of `acquire` or `release` themselves. -/
theorem exec_spec (h : Rest b d c) (hf : Fits d (i :: is) e) :
    (∃ c' d', exec c i = .ok c' ∧ Rest b d' c' ∧ Fits d' (if again c i then i :: is else is) e) ∨
      exec c i = .error .acquire ∨ exec c i = .error .release := by
  have hkeep : ∀ r (locked mine : L → Bool), Rest b d { c with r := r, locked := locked, mine := mine } :=
    fun _ _ _ => ⟨h.le, h.ncli, h.out, h.deep⟩
  cases i with
  | pushcli => obtain ⟨c', he, h'⟩ := h.push hf.1; exact .inl ⟨c', _, he, h', hf.2⟩
  | popcli =>
    obtain ⟨d, rfl⟩ := Nat.exists_eq_succ_of_ne_zero (ne_of_gt hf.1)
    obtain ⟨c', he, h'⟩ := h.pop
    exact .inl ⟨c', d, he, h', hf.2⟩
  | readHeld l =>
    rw [exec, mycpu_eq (h.deep hf.1).1]
    cases c.locked l with
    | true | false => exact .inl ⟨_, d, rfl, hkeep .., hf.2⟩
  | setCpu l => rw [exec, mycpu_eq (h.deep hf.1).1]; exact .inl ⟨_, d, rfl, hkeep .., hf.2⟩
  | notHeld =>
    rw [exec]
    cases c.r with
    | true => exact .inr (.inl rfl)
    | false => exact .inl ⟨c, d, rfl, h, hf⟩
  | isHeld =>
    rw [exec]
    cases c.r with
    | true => exact .inl ⟨c, d, rfl, h, hf⟩
    | false => exact .inr (.inr rfl)
  | xchg l =>
    refine .inl ⟨_, d, rfl, hkeep .., ?_⟩
    split
    · exact hf
    · exact hf
  | clearCpu l | unlock l => exact .inl ⟨_, d, rfl, hkeep .., hf⟩

def Inv (b : Bool) (s : Sys L) : Prop := ∃ d e : Nat, Rest b d s.cpu ∧ Fits d s.code e ∧ s.depth = e ∧ e < 2 ^ 31

theorem run_spec (h : Inv b s) :
    (∃ s', run s = .ok s' ∧ Inv b s') ∨ run s = .error .acquire ∨ run s = .error .release := by
  obtain ⟨d, e, hr, hf, hde⟩ := h
  unfold run
  cases hcode : s.code with
  | nil => exact .inl ⟨s, rfl, d, e, hr, hf, hde⟩
  | cons i is =>
    rw [hcode] at hf
    simp only
    rcases exec_spec hr hf with ⟨c', d', he, hr', hf'⟩ | he | he
    all_goals rw [he]
    · exact .inl ⟨_, rfl, d', e, hr', hf', hde⟩
    · exact .inr (.inl rfl)
    · exact .inr (.inr rfl)

theorem inv_step {a : Act L} (h : Inv b s) (hm : matched s a = true) (hc : counted s a = true)
    (hs : step s a = some s') :
    Inv b s' := by
  cases a with
  | call k =>
    obtain ⟨d, e, hr, hf, hde, he⟩ := h
    obtain ⟨h0, ⟨⟩⟩ := Option.ite_none_right_eq_some.1 hs
    rw [h0] at hf
    obtain rfl : d = e := hf
    have hm := of_decide_eq_true hm
    have hc := of_decide_eq_true hc
    have hn : ((s.depth + k.weight).toNat : Int) = s.depth + k.weight := Int.toNat_of_nonneg hm
    exact ⟨d, _, hr, fits_call he (by omega) (by rw [hn, hde]), hn.symm, by omega⟩
  | other l locked =>
    obtain ⟨d, e, hr, hf, hde⟩ := h
    obtain ⟨-, ⟨⟩⟩ := Option.ite_none_left_eq_some.1 hs
    exact ⟨d, e, ⟨hr.le, hr.ncli, hr.out, hr.deep⟩, hf, hde⟩
  | run =>
    rw [step] at hs
    rcases run_spec h with ⟨s1, hr, h1⟩ | hr | hr
    all_goals
      rw [hr] at hs; cases hs
    exact h1

/-- Interrupt-disable nesting: at every point of every run of `pushcli`, `popcli`, `acquire` and `release`, with the
locks released in any order and the other CPUs doing what they like, the CPU is not interruptible while `ncli` is
positive, it has its flag back when `ncli` is 0, and neither panic of `popcli` is reached. -/
theorem interrupts_nest (b : Bool) (s : Sys L) (hr : Reach (Start b) step (fun s a => matched s a ∧ counted s a) s) :
    (0 < s.cpu.ncli → s.cpu.fl = false) ∧ (s.cpu.ncli = 0 → s.cpu.fl = b) ∧
      run s ≠ .error .interruptible ∧ run s ≠ .error .popcli := by
  have hi : Inv b s := by
    refine hr.inv ?_ fun s a s' h hok hs => inv_step h hok.1 hok.2 hs
    rintro s ⟨h1, h2, h3, h4⟩
    exact ⟨0, 0, ⟨by omega, h2, fun _ => h1, nofun⟩, by rw [h3]; rfl, h4, by omega⟩
  obtain ⟨d, e, h, -⟩ := id hi
  have hzero : s.cpu.ncli = 0 ↔ d = 0 := by
    rw [h.ncli]; exact ofNat_eq_zero h.le
  refine ⟨fun hn => ?_, fun hn => h.out (hzero.1 hn), ?_⟩
  · refine (h.deep (Nat.pos_of_ne_zero fun hd => ?_)).1
    rw [hzero.2 hd] at hn
    cases hn
  · rcases run_spec hi with ⟨s', hrun, -⟩ | hrun | hrun
    all_goals
      rw [hrun]; exact ⟨nofun, nofun⟩

/-- Interrupts are on again after two pushes and two pops, a lock among them. -/
theorem interrupts_nest_crossed : ∃ s : Sys Unit, Reach (Start true) step (fun s a => matched s a ∧ counted s a) s ∧
    s.code = [] ∧ s.cpu.ncli = 0 ∧ s.cpu.fl = true := by
  have hrun : (runActs (guarded step fun s a => matched s a ∧ counted s a)
      ⟨⟨true, 0, false, false, fun _ => false, fun _ => false⟩, [], 0⟩
      ([.call .pushcli, .run, .call (.acquire ())] ++ List.replicate 7 .run ++ [.call .popcli, .run,
        .call (.release ())] ++ List.replicate 7 .run)).any
        (fun s : Sys Unit => decide (s.code = [] ∧ s.cpu.ncli = 0)) = true := by
    decide +kernel
  obtain ⟨s, hr, hs⟩ := exists_reach_of_guarded_run (Start true) _ ⟨rfl, rfl, rfl, rfl⟩ _ _ hrun
  obtain ⟨h1, h2⟩ := of_decide_eq_true hs
  exact ⟨s, hr, h1, h2, (interrupts_nest true s hr).2.1 h2⟩

theorem reach_pushes : ∀ n : Nat, ∃ c : Cpu Unit, Reach (Start true) step (matched · ·) ⟨c, [], n⟩ ∧
    c.ncli = Int32.ofNat n ∧ (n ≠ 0 → c.fl = false)
  | 0 => ⟨⟨true, 0, false, false, fun _ => false, fun _ => false⟩, .init ⟨rfl, rfl, rfl, rfl⟩, rfl, nofun⟩
  | n + 1 => by
    obtain ⟨c, hr, hn, -⟩ := reach_pushes n
    have h1 := hr.step (a := .call .pushcli) (decide_eq_true (Int.natCast_nonneg (n + 1))) rfl
    obtain ⟨c', he, hn', hfl⟩ : ∃ c', pushcli c = .ok c' ∧ c'.ncli = c.ncli + 1 ∧ c'.fl = false :=
      ⟨_, pushcli_eq c, rfl, rfl⟩
    have h2 : step ⟨c, [.pushcli], n + 1⟩ .run = some ⟨c', [], n + 1⟩ := by
      show ((pushcli c).map _).toOption = _; rw [he]; rfl
    refine ⟨c', h1.step rfl h2, ?_, fun _ => hfl⟩
    rw [hn', hn, Int32.ofNat_add]
    rfl

/-- Interrupts are on; 2^31 + 1 calls of `pushcli`, then one of `popcli`, which finds `ncli` below 0 and panics. -/
theorem nesting_overflows : ∃ s : Sys Unit, Reach (Start true) step (matched · ·) s ∧ run s = .error .popcli := by
  obtain ⟨c, hr, hn, hfl⟩ := reach_pushes (2 ^ 31 + 1)
  refine ⟨_, hr.step (a := .call .popcli) rfl rfl, ?_⟩
  have hneg : c.ncli - 1 < 0 := by
    rw [hn]; decide
  show (popcli c).map _ = _
  simp [popcli, mycpu, hfl, hneg, bind, Except.bind, Except.map, throw, throwThe, MonadExceptOf.throw]

end

end Xv6.Pushcli
