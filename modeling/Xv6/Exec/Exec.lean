/-
`exec` of a regular file, on the memory of `vm.c`. The file is its bytes; of the process there are the directory,
the size, the name and the two registers that `exec` sets, and of the file system the lock and the reference of
the inode and the transactions that the process has open. The strings of `argv` are those of the old address
space, which does not change before the new one takes its place.
-/
import Xv6.Vm.Vm

namespace Xv6.Exec

open Base Vm

def MAXARG : Nat := 32
def ELF_MAGIC : Nat := 0x464C457F
def ELF_PROG_LOAD : Nat := 1

/-! ## The file -/

/-- `readi` of a regular file: the bytes read, none for -1. -/
def readi (file : List UInt8) (off n : Nat) : Option (List UInt8) :=
  if file.length < off ∨ add32 off n < off then none else some ((file.drop off).take n)

structure Elfhdr where
  magic : Nat
  entry : Nat
  phoff : Nat
  phnum : Nat

def sizeofElfhdr : Nat := 52

def elfhdr (b : List UInt8) : Elfhdr :=
  ⟨getLE (ofList b) 0 4, getLE (ofList b) 24 4, getLE (ofList b) 28 4, getLE (ofList b) 44 2⟩

structure Proghdr where
  type : Nat
  off : Nat
  vaddr : Nat
  filesz : Nat
  memsz : Nat

def sizeofProghdr : Nat := 32

def proghdr (b : List UInt8) : Proghdr :=
  ⟨getLE (ofList b) 0 4, getLE (ofList b) 4 4, getLE (ofList b) 8 4, getLE (ofList b) 16 4, getLE (ofList b) 20 4⟩

/-! ## Loading -/

def loadLoop (file : List UInt8) (pgdir addr offset sz : Nat) : Nat → Nat → M Bool
  | 0, _ => throw .spin
  | n + 1, i =>
    if i < sz then do
      let pte ← walkpgdir pgdir (add32 addr i) false
      match pte with
      | none => throw .loadNoPte
      | some (t, j) => do
        let s ← get
        let m := if sz - i < PGSIZE then sz - i else PGSIZE
        match readi file (add32 offset i) m with
        | none => pure false
        | some b => do
          copyTo (frame (entry s t j)) 0 b.length (ofList b)
          if b.length ≠ m then pure false else loadLoop file pgdir addr offset sz n (add32 i PGSIZE)
    else pure true

/-- Whether it returned 0. -/
def loaduvm (file : List UInt8) (pgdir addr offset sz : Nat) : M Bool :=
  if addr % PGSIZE ≠ 0 then throw .loadAlign else loadLoop file pgdir addr offset sz turns 0

/-- The loop over the program headers: the new size, none for `goto bad`. -/
def loadSegs (L : Link) (file : List UInt8) (pgdir : Nat) : Nat → Nat → Nat → M (Option Nat)
  | 0, _, sz => pure (some sz)
  | n + 1, off, sz =>
    match readi file off sizeofProghdr with
    | none => pure none
    | some b =>
      if b.length ≠ sizeofProghdr then pure none
      else
        let ph := proghdr b
        if ph.type ≠ ELF_PROG_LOAD then loadSegs L file pgdir n (add32 off sizeofProghdr) sz
        else if ph.memsz < ph.filesz then pure none
        else if add32 ph.vaddr ph.memsz < ph.vaddr then pure none
        else do
          let sz ← allocuvm L pgdir sz (add32 ph.vaddr ph.memsz)
          if sz = 0 then pure none
          else if ph.vaddr % PGSIZE ≠ 0 then pure none
          else do
            let ok ← loaduvm file pgdir ph.vaddr ph.off ph.filesz
            if ok then loadSegs L file pgdir n (add32 off sizeofProghdr) sz else pure none

/-! ## The stack -/

/-- The argument strings are pushed: the stack pointer and the pointers to them, none for `goto bad`. -/
def pushArgs (pgdir : Nat) : List (List UInt8) → Nat → List Nat → M (Option (Nat × List Nat))
  | [], sp, ptrs => pure (some (sp, ptrs))
  | arg :: argv, sp, ptrs =>
    if MAXARG ≤ ptrs.length then pure none
    else do
      let sp' := sub32 sp (arg.length + 1) / 4 * 4
      let ok ← copyout pgdir sp' (ofList arg) (arg.length + 1)
      if ok then pushArgs pgdir argv sp' (ptrs ++ [sp']) else pure none

/-- An array of words as bytes. -/
def wordBytes (ws : List Nat) : Nat → UInt8 := fun j => bytesLE (ws.getD (j / 4) 0) (j % 4)

def ustack (sp : Nat) (ptrs : List Nat) : List Nat :=
  [0xffffffff, ptrs.length, sub32 sp ((ptrs.length + 1) * 4)] ++ ptrs ++ [0]

/-- The guard page, the strings and the words above them: the stack pointer. -/
def setupStack (pgdir sz : Nat) (argv : List (List UInt8)) : M (Option Nat) := do
  clearpteu pgdir (sub32 sz (2 * PGSIZE))
  let r ← pushArgs pgdir argv sz []
  match r with
  | none => pure none
  | some (sp, ptrs) => do
    let sp' := sub32 sp ((3 + ptrs.length + 1) * 4)
    let ok ← copyout pgdir sp' (wordBytes (ustack sp ptrs)) ((3 + ptrs.length + 1) * 4)
    if ok then pure (some sp') else pure none

/-! ## `exec` -/

structure Trapframe where
  eip : Nat
  esp : Nat

structure Proc where
  pgdir : Nat
  sz : Nat
  name : List UInt8
  tf : Trapframe

/-- Memory, the process, the lock and the reference count of the inode, and the process's open transactions. -/
structure World where
  st : St
  proc : Proc
  locked : Bool
  ref : Nat
  ops : Nat

abbrev X := Cmd World Panic

/-- A function of `vm.c`. -/
def vm {α : Type} (c : M α) : X α := fun w => (c w.st).map fun r => (r.1, { w with st := r.2 })

def begin_op : X Unit := modify fun w => { w with ops := w.ops + 1 }

def end_op : X Unit := modify fun w => { w with ops := w.ops - 1 }

/-- The reference that `namei` returns. -/
def hold : X Unit := modify fun w => { w with ref := w.ref + 1 }

def ilock : X Unit := modify fun w => { w with locked := true }

def iunlockput : X Unit := modify fun w => { w with locked := false, ref := w.ref - 1 }

/-- The part of a path behind its last slash. -/
def lastElem (path : List UInt8) : List UInt8 := (path.reverse.takeWhile (· ≠ 47)).reverse

/-- `bad:`, with the directory if there is one, and whether `ip` is still there. -/
def bad (L : Link) (pgdir : Option Nat) (ip : Bool) : X Bool := do
  match pgdir with
  | some d => vm (freevm L d)
  | none => pure ()
  if ip then do
    iunlockput
    end_op
  pure false

/-- The new image takes the place of the old one. -/
def commit (L : Link) (path : List UInt8) (pgdir sz entry sp : Nat) : X Bool := do
  let w ← get
  set { w with proc := ⟨pgdir, sz, (lastElem path).take 15, ⟨entry, sp⟩⟩ }
  vm (freevm L w.proc.pgdir)
  pure true

/-- What is left to do when the file is loaded: two pages at the next page boundary, the stack in the second. -/
def finish (L : Link) (path : List UInt8) (argv : List (List UInt8)) (pgdir sz entry : Nat) : X Bool := do
  let sz ← vm (allocuvm L pgdir (PGROUNDUP sz) (add32 (PGROUNDUP sz) (2 * PGSIZE)))
  if sz = 0 then bad L (some pgdir) false
  else do
    let r ← vm (setupStack pgdir sz argv)
    match r with
    | none => bad L (some pgdir) false
    | some sp => commit L path pgdir sz entry sp

/-- Whether it returned 0; `ip` is the file that the path leads to. -/
def exec (L : Link) (ip : Option (List UInt8)) (path : List UInt8) (argv : List (List UInt8)) : X Bool := do
  begin_op
  match ip with
  | none => do
    end_op
    pure false
  | some file => do
    hold
    ilock
    match readi file 0 sizeofElfhdr with
    | none => bad L none true
    | some h =>
      if h.length ≠ sizeofElfhdr then bad L none true
      else if (elfhdr h).magic ≠ ELF_MAGIC then bad L none true
      else do
        let r ← vm (setupkvm L)
        match r with
        | none => bad L none true
        | some pgdir => do
          let r ← vm (loadSegs L file pgdir (elfhdr h).phnum (elfhdr h).phoff 0)
          match r with
          | none => bad L (some pgdir) true
          | some sz => do
            iunlockput
            end_op
            finish L path argv pgdir sz (elfhdr h).entry

end Xv6.Exec
