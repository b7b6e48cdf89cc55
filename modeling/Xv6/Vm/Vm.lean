/-
Pages, page directories and the functions of `kalloc.c` and `vm.c` that work on them. Physical memory is a
function from page numbers to the bytes of a page; entries of directories and tables are numbers of four bytes
in it. The chain through the free pages is a list. `kalloc` fails when the list is empty, and where `fails` says
so. Addresses and sizes are unsigned and wrap around; a panic ends the command.
-/
import Xv6.Base.Bytes
import Xv6.Base.Command

namespace Xv6.Vm

open Base Function

def PGSIZE : Nat := 4096
def NPDENTRIES : Nat := 1024
def KERNBASE : Nat := 0x80000000
def EXTMEM : Nat := 0x100000
def PHYSTOP : Nat := 0xE000000
def DEVSPACE : Nat := 0xFE000000
def PTE_P : Nat := 1
def PTE_W : Nat := 2
def PTE_U : Nat := 4

/-- What linking the kernel decides: the physical addresses of `data`, on a page, and of `end`. -/
structure Link where
  data : Nat
  stop : Nat
  page : data % PGSIZE = 0
  text : EXTMEM < data
  data_le : data ≤ stop
  stop_le : stop ≤ PHYSTOP

abbrev Page := Nat → UInt8

structure St where
  mem : Nat → Page
  free : List Nat
  fails : List Bool := []

/-- The panics of these functions, a fault in the kernel, and a loop that does not end. -/
inductive Panic
  | kfree
  | remap
  | physTop
  | copyNoPte
  | copyNotPresent
  | loadAlign
  | loadNoPte
  | clearpteu
  | fault
  | spin
  deriving DecidableEq, Repr

abbrev M := Cmd St Panic

/-! ## Pages -/

/-- Entry `k` of the directory or table in page `f`. -/
def entry (s : St) (f k : Nat) : Nat := getLE (s.mem f) (4 * k) 4

/-- The whole of page `f` is written. -/
def fill (f : Nat) (b : Page) : M Unit := modify fun s => { s with mem := update s.mem f b }

def setEntry (f k w : Nat) : M Unit := modify fun s => { s with mem := update s.mem f (putLE (s.mem f) (4 * k) 4 w) }

def present (w : Nat) : Prop := w % 2 = 1

instance (w : Nat) : Decidable (present w) := inferInstanceAs (Decidable (w % 2 = 1))

/-- The page number in an entry, `PTE_ADDR`. -/
def frame (w : Nat) : Nat := w / PGSIZE

def PTE_FLAGS (w : Nat) : Nat := w % PGSIZE

def kalloc : M (Option Nat) := fun s =>
  if s.fails.head? = some true then .ok (none, { s with fails := s.fails.tail })
  else match s.free with
    | [] => .ok (none, { s with fails := s.fails.tail })
    | r :: rest => .ok (some r, { s with free := rest, fails := s.fails.tail })

/-- A page filled with junk, and the chain through the free pages in its first word. -/
def junk (free : List Nat) : Page :=
  putLE (fun _ => 1) 0 4 (match free with | [] => 0 | r :: _ => KERNBASE + r * PGSIZE)

def kfree (L : Link) (f : Nat) : M Unit := fun s =>
  if f * PGSIZE < L.stop ∨ PHYSTOP ≤ f * PGSIZE then .error .kfree
  else .ok ((), { s with mem := update s.mem f (junk s.free), free := f :: s.free })

/-! ## Directories -/

def PDX (va : Nat) : Nat := va / 2 ^ 22 % 1024
def PTX (va : Nat) : Nat := va / 2 ^ 12 % 1024
def PGADDR (d t o : Nat) : Nat := (d * 2 ^ 22 + t * 2 ^ 12 + o) % 2 ^ 32
def PGROUNDUP (sz : Nat) : Nat := (sz + (PGSIZE - 1)) % 2 ^ 32 / PGSIZE * PGSIZE
def PGROUNDDOWN (a : Nat) : Nat := a / PGSIZE * PGSIZE
/-- The difference of two `uint`s. -/
def sub32 (a b : Nat) : Nat := (a + 2 ^ 32 - b) % 2 ^ 32

/-- The table and the index in it of the entry for `va`. -/
def walkpgdir (pgdir va : Nat) (alloc : Bool) : M (Option (Nat × Nat)) := do
  let s ← get
  if present (entry s pgdir (PDX va)) then pure (some (frame (entry s pgdir (PDX va)), PTX va))
  else if alloc = false then pure none
  else do
    let r ← kalloc
    match r with
    | none => pure none
    | some pgtab => do
      fill pgtab fun _ => 0
      setEntry pgdir (PDX va) (pgtab * PGSIZE ||| PTE_P ||| PTE_W ||| PTE_U)
      pure (some (pgtab, PTX va))

/-- One turn of the loop of `mappages`. -/
def mapPage (pgdir perm a pa : Nat) : M Bool := do
  let pte ← walkpgdir pgdir a true
  match pte with
  | none => pure false
  | some (t, j) => do
    let s ← get
    if present (entry s t j) then throw .remap
    else do
      setEntry t j (pa ||| perm ||| PTE_P)
      pure true

/-- The loop of `mappages`, with the number of pages before `last`. -/
def mapLoop (pgdir perm : Nat) : Nat → Nat → Nat → M Bool
  | 0, a, pa => mapPage pgdir perm a pa
  | n + 1, a, pa => do
    let ok ← mapPage pgdir perm a pa
    if ok then mapLoop pgdir perm n (add32 a PGSIZE) (add32 pa PGSIZE) else pure false

/-- Whether it returned 0. -/
def mappages (pgdir va size pa perm : Nat) : M Bool :=
  let a := PGROUNDDOWN va
  let last := PGROUNDDOWN (sub32 (add32 va size) 1)
  mapLoop pgdir perm (sub32 last a / PGSIZE) a pa

def deallocLoop (L : Link) (pgdir oldsz : Nat) : Nat → Nat → M Unit
  | 0, _ => throw .spin
  | n + 1, a =>
    if a < oldsz then do
      let pte ← walkpgdir pgdir a false
      match pte with
      | none => deallocLoop L pgdir oldsz n (add32 (sub32 (PGADDR (PDX a + 1) 0 0) PGSIZE) PGSIZE)
      | some (t, j) => do
        let s ← get
        if present (entry s t j) then
          if frame (entry s t j) = 0 then throw .kfree
          else do
            kfree L (frame (entry s t j))
            setEntry t j 0
            deallocLoop L pgdir oldsz n (add32 a PGSIZE)
        else deallocLoop L pgdir oldsz n (add32 a PGSIZE)
    else pure ()

/-- Turns enough for every page of the address space. -/
def turns : Nat := 2 ^ 20 + 1

def deallocuvm (L : Link) (pgdir oldsz newsz : Nat) : M Nat :=
  if oldsz ≤ newsz then pure oldsz
  else do
    deallocLoop L pgdir oldsz turns (PGROUNDUP newsz)
    pure newsz

def freeTables (L : Link) (pgdir : Nat) : List Nat → M Unit
  | [] => pure ()
  | i :: is => do
    let s ← get
    if present (entry s pgdir i) then do
      kfree L (frame (entry s pgdir i))
      freeTables L pgdir is
    else freeTables L pgdir is

def freevm (L : Link) (pgdir : Nat) : M Unit := do
  let _ ← deallocuvm L pgdir KERNBASE 0
  freeTables L pgdir (List.range NPDENTRIES)
  kfree L pgdir

structure Kmap where
  virt : Nat
  phys_start : Nat
  phys_end : Nat
  perm : Nat

def kmap (L : Link) : List Kmap := [
  ⟨KERNBASE, 0, EXTMEM, PTE_W⟩,
  ⟨KERNBASE + EXTMEM, EXTMEM, L.data, 0⟩,
  ⟨KERNBASE + L.data, L.data, PHYSTOP, PTE_W⟩,
  ⟨DEVSPACE, DEVSPACE, 0, PTE_W⟩]

def mapKernel (pgdir : Nat) : List Kmap → M Bool
  | [] => pure true
  | k :: ks => do
    let ok ← mappages pgdir k.virt (sub32 k.phys_end k.phys_start) k.phys_start k.perm
    if ok then mapKernel pgdir ks else pure false

def setupkvm (L : Link) : M (Option Nat) := do
  let r ← kalloc
  match r with
  | none => pure none
  | some pgdir => do
    fill pgdir fun _ => 0
    if DEVSPACE < KERNBASE + PHYSTOP then throw .physTop
    else do
      let ok ← mapKernel pgdir (kmap L)
      if ok then pure (some pgdir)
      else do
        freevm L pgdir
        pure none

def allocLoop (L : Link) (pgdir oldsz newsz : Nat) : Nat → Nat → M Nat
  | 0, _ => throw .spin
  | n + 1, a =>
    if a < newsz then do
      let r ← kalloc
      match r with
      | none => do
        let _ ← deallocuvm L pgdir newsz oldsz
        pure 0
      | some mem => do
        fill mem fun _ => 0
        let ok ← mappages pgdir a PGSIZE (mem * PGSIZE) (PTE_W ||| PTE_U)
        if ok then allocLoop L pgdir oldsz newsz n (add32 a PGSIZE)
        else do
          let _ ← deallocuvm L pgdir newsz oldsz
          kfree L mem
          pure 0
    else pure newsz

/-- The new size, or 0. -/
def allocuvm (L : Link) (pgdir oldsz newsz : Nat) : M Nat :=
  if KERNBASE ≤ newsz then pure 0
  else if newsz < oldsz then pure oldsz
  else allocLoop L pgdir oldsz newsz turns (PGROUNDUP oldsz)

/-- The loop of `copyuvm` into the directory `d`, and whether it got to the end. -/
def copyLoop (L : Link) (pgdir d sz : Nat) : Nat → Nat → M Bool
  | 0, _ => throw .spin
  | n + 1, i =>
    if i < sz then do
      let pte ← walkpgdir pgdir i false
      match pte with
      | none => throw .copyNoPte
      | some (t, j) => do
        let s ← get
        if ¬present (entry s t j) then throw .copyNotPresent
        else do
          let r ← kalloc
          match r with
          | none => pure false
          | some mem => do
            fill mem (s.mem (frame (entry s t j)))
            let ok ← mappages d i PGSIZE (mem * PGSIZE) (PTE_FLAGS (entry s t j))
            if ok then copyLoop L pgdir d sz n (add32 i PGSIZE)
            else do
              kfree L mem
              pure false
    else pure true

def copyuvm (L : Link) (pgdir sz : Nat) : M (Option Nat) := do
  let r ← setupkvm L
  match r with
  | none => pure none
  | some d => do
    let ok ← copyLoop L pgdir d sz turns 0
    if ok then pure (some d)
    else do
      freevm L d
      pure none

/-! ## User memory from the kernel -/

/-- `PTE_U` in an entry. -/
def userBit (w : Nat) : Prop := w / PTE_U % 2 = 1

instance (w : Nat) : Decidable (userBit w) := inferInstanceAs (Decidable (w / PTE_U % 2 = 1))

def clearpteu (pgdir uva : Nat) : M Unit := do
  let pte ← walkpgdir pgdir uva false
  match pte with
  | none => throw .clearpteu
  | some (t, j) => do
    let s ← get
    setEntry t j (if userBit (entry s t j) then entry s t j - PTE_U else entry s t j)

/-- The page for a user address. Without a table the null pointer is dereferenced. -/
def uva2ka (pgdir uva : Nat) : M (Option Nat) := do
  let pte ← walkpgdir pgdir uva false
  match pte with
  | none => throw .fault
  | some (t, j) => do
    let s ← get
    if ¬present (entry s t j) then pure none
    else if ¬userBit (entry s t j) then pure none
    else pure (some (frame (entry s t j)))

/-- `memmove` into page `f`. -/
def copyTo (f o n : Nat) (buf : Nat → UInt8) : M Unit := modify fun s =>
  { s with mem := update s.mem f (paste (s.mem f) o n buf) }

def copyoutLoop (pgdir : Nat) : Nat → Nat → (Nat → UInt8) → Nat → M Bool
  | 0, _, _, len => if 0 < len then throw .spin else pure true
  | n + 1, va, buf, len =>
    if 0 < len then do
      let r ← uva2ka pgdir (PGROUNDDOWN va)
      match r with
      | none => pure false
      | some pa0 => do
        let k := min (PGSIZE - (va - PGROUNDDOWN va)) len
        copyTo pa0 (va - PGROUNDDOWN va) k buf
        copyoutLoop pgdir n (add32 (PGROUNDDOWN va) PGSIZE) (slice buf k) (len - k)
    else pure true

/-- Whether it returned 0. -/
def copyout (pgdir va : Nat) (buf : Nat → UInt8) (len : Nat) : M Bool := copyoutLoop pgdir turns va buf len

end Xv6.Vm
