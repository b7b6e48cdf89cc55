/-
The MP configuration table. `mpinit` takes the table it is given by signature, version and checksum and walks its
entries: a processor is entered into `cpus` while there is room, an I/O APIC leaves its id, and each known entry is
stepped over by its size. An unknown one is not: the `break` in its case leaves the switch and not the loop, so the walk
comes back to it for ever, and `ismp`, which it has cleared, is never looked at.
-/
import Xv6.Base.Bytes

namespace Xv6.Smp

/-! ## The table -/

/-- The bytes from the start of the table on. -/
abbrev Conf := Nat → UInt8

def NCPU : Nat := 8

/-- `sizeof(struct mpconf)`, `sizeof(struct mpproc)` and `sizeof(struct mpioapic)`. -/
def sizeofMpconf : Nat := 44

def sizeofMpproc : Nat := 20

def sizeofMpioapic : Nat := 8

/-! The types of entries. -/

def MPPROC : UInt8 := 0
def MPBUS : UInt8 := 1
def MPIOAPIC : UInt8 := 2
def MPIOINTR : UInt8 := 3
def MPLINTR : UInt8 := 4

def Conf.length (conf : Conf) : Nat := Base.getLE conf 4 2

def sum (addr : Nat → UInt8) (len : Nat) : UInt8 := (List.range len).foldl (fun s i => s + addr i) 0

/-- The checks of `mpconfig`: `PCMP`, the version and the checksum. -/
def mpconfig (conf : Conf) : Bool :=
  (List.range 4).map conf = [80, 67, 77, 80] ∧ (conf 6 = 1 ∨ conf 6 = 4) ∧ sum conf conf.length = 0

/-! ## The walk -/

/-- What the loop of `mpinit` keeps: `p` as an offset in the table, and the first `ncpu` of `cpus` by their `apicid`. -/
structure Walk where
  p : Nat := sizeofMpconf
  cpus : List UInt8 := []
  ioapicid : UInt8 := 0
  ismp : Bool := true
  deriving DecidableEq, Repr

/-- The body of the loop. -/
def round (conf : Conf) (m : Walk) : Walk :=
  if conf m.p = MPPROC then
    { m with cpus := if m.cpus.length < NCPU then m.cpus ++ [conf (m.p + 1)] else m.cpus, p := m.p + sizeofMpproc }
  else if conf m.p = MPIOAPIC then { m with ioapicid := conf (m.p + 1), p := m.p + sizeofMpioapic }
  else if conf m.p = MPBUS ∨ conf m.p = MPIOINTR ∨ conf m.p = MPLINTR then { m with p := m.p + 8 }
  else { m with ismp := false }

/-- The loop, cut off after a number of rounds. -/
def walk (conf : Conf) : Nat → Walk → Option Walk
  | 0, m => if m.p < conf.length then none else some m
  | n + 1, m => if m.p < conf.length then walk conf n (round conf m) else some m

/-- The two calls of `panic`. -/
inductive MpPanic
  | expectSmp
  | notSuitable
  deriving DecidableEq, Repr

/-- `mpinit`, or nothing if its loop has not ended after `n` rounds. -/
def mpinit (conf : Conf) (n : Nat) : Option (Except MpPanic Walk) :=
  if mpconfig conf = false then some (.error .expectSmp)
  else (walk conf n {}).map fun m => if m.ismp = false then .error .notSuitable else .ok m

/-! ## Where it ends -/

def entrySize (t : UInt8) : Option Nat :=
  if t = MPPROC then some sizeofMpproc
  else if t = MPIOAPIC then some sizeofMpioapic
  else if t = MPBUS ∨ t = MPIOINTR ∨ t = MPLINTR then some 8
  else none

/-- From `p` to the end of the table there are only entries of known types. -/
inductive Known (conf : Conf) : Nat → Prop
  | done {p : Nat} : conf.length ≤ p → Known conf p
  | entry {p n : Nat} : p < conf.length → entrySize (conf p) = some n → Known conf (p + n) → Known conf p

section

variable {conf : Conf} {m r : Walk}

theorem round_cases (conf : Conf) (m : Walk) :
    (∃ n, entrySize (conf m.p) = some n ∧ (round conf m).p = m.p + n ∧ (round conf m).ismp = m.ismp) ∨
      entrySize (conf m.p) = none ∧ (round conf m).p = m.p := by
  unfold round entrySize
  split
  · exact .inl ⟨_, rfl, rfl, rfl⟩
  · split
    · exact .inl ⟨_, rfl, rfl, rfl⟩
    · split
      · exact .inl ⟨_, rfl, rfl, rfl⟩
      · exact .inr ⟨rfl, rfl⟩

theorem round_ncpu (h : m.cpus.length ≤ NCPU) : (round conf m).cpus.length ≤ NCPU := by
  unfold round
  split
  · simp only
    split
    · rw [List.length_append, List.length_singleton]; omega
    · exact h
  · split
    · exact h
    · split
      · exact h
      · exact h

theorem walk_ncpu : ∀ n {m : Walk}, walk conf n m = some r → m.cpus.length ≤ NCPU → r.cpus.length ≤ NCPU
  | 0, m, h, hm => by
    obtain ⟨-, h⟩ | ⟨-, h⟩ := ite_eq_iff.1 h
    · cases h
    · cases h; exact hm
  | n + 1, m, h, hm => by
    obtain ⟨-, h⟩ | ⟨-, h⟩ := ite_eq_iff.1 h
    · exact walk_ncpu n h (round_ncpu hm)
    · cases h; exact hm

/-- A walk that ends has stepped over known entries only: at an unknown one it is where it was. -/
theorem known_of_walk : ∀ n {m : Walk}, walk conf n m = some r → Known conf m.p
  | 0, m, h => by
    obtain ⟨-, h⟩ | ⟨hlt, -⟩ := ite_eq_iff.1 h
    · cases h
    · exact .done (by omega)
  | n + 1, m, h => by
    obtain ⟨hlt, h⟩ | ⟨hlt, -⟩ := ite_eq_iff.1 h
    · have hrest := known_of_walk n h
      rcases round_cases conf m with ⟨k, hk, hp, -⟩ | ⟨-, hp⟩
      · rw [hp] at hrest; exact .entry hlt hk hrest
      · rwa [hp] at hrest
    · exact .done (by omega)

theorem exists_walk {p : Nat} (h : Known conf p) : ∀ {m : Walk}, m.p = p →
    ∃ n r, walk conf n m = some r ∧ conf.length ≤ r.p ∧ r.ismp = m.ismp := by
  induction h with
  | @done p hge => rintro m rfl; exact ⟨0, m, if_neg (by omega), hge, rfl⟩
  | @entry p k hlt hk _ ih =>
    rintro m rfl
    rcases round_cases conf m with ⟨k', hk', hp, hs⟩ | ⟨hnone, -⟩
    · cases hk.symm.trans hk'
      obtain ⟨n, r, hw, hge, hr⟩ := ih hp
      exact ⟨n + 1, r, (if_pos hlt).trans hw, hge, hr.trans hs⟩
    · rw [hk] at hnone; cases hnone

end

/-- For a table that passes the checks `mpinit` ends, past every entry, exactly when all its entries are of known
types. -/
theorem mpinit_ends_iff (conf : Conf) (h : mpconfig conf = true) :
    (∃ n m, mpinit conf n = some (.ok m) ∧ m.cpus.length ≤ NCPU ∧ conf.length ≤ m.p) ↔ Known conf sizeofMpconf := by
  have hinit : ∀ n, mpinit conf n = (walk conf n {}).map fun m => if m.ismp = false
      then .error .notSuitable else .ok m :=
    fun n => if_neg (by simp [h])
  constructor
  · rintro ⟨n, m, hm, -⟩
    rw [hinit, Option.map_eq_some_iff] at hm
    obtain ⟨r, hr, -⟩ := hm
    exact known_of_walk n hr
  · intro hk
    obtain ⟨n, r, hw, hge, hs⟩ := exists_walk hk (m := {}) rfl
    refine ⟨n, r, ?_, walk_ncpu n hw zero_le, hge⟩
    rw [hinit, hw, Option.map_some, if_neg]
    rw [hs]
    decide

/-- A table with one entry of type `t` in the 20 bytes behind the header. -/
def oneEntry (t checksum : UInt8) :
    Conf := fun i => ([80, 67, 77, 80, 64, 0, 4, checksum] ++ List.replicate 36 0 ++ [t]).getD i 0

theorem mpinit_ends_oneProc : mpconfig (oneEntry MPPROC 140) = true ∧
    ∃ n m, mpinit (oneEntry MPPROC 140) n = some (.ok m) ∧ m.cpus.length ≤ NCPU ∧ (oneEntry MPPROC 140).length ≤ m.p :=
  ⟨by decide +kernel, (mpinit_ends_iff _ (by decide +kernel)).2 (.entry (by decide) rfl (.done (by decide)))⟩

/-- An entry of type 5: the table passes the checks, and the loop goes on after any number of rounds. -/
theorem mpinit_hangs : mpconfig (oneEntry 5 135) = true ∧ ∀ n, mpinit (oneEntry 5 135) n = none := by
  have hconf : mpconfig (oneEntry 5 135) = true := by decide +kernel
  refine ⟨hconf, fun n => ?_⟩
  rw [mpinit, if_neg (by rw [hconf]; decide), Option.map_eq_none_iff, Option.eq_none_iff_forall_ne_some]
  intro r hr
  cases known_of_walk n hr with
  | done hge => exact absurd hge (by decide)
  | entry _ hk _ => cases hk

end Xv6.Smp
