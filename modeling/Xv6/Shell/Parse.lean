/-
The parser of the shell (`sh.c`). `gettoken` and `peek` move a pointer over the command line and skip
blanks on both sides of a token; `parseline`, `parsepipe`, `parseexec` and `parseblock` call each other
on that pointer, and `parsecmd` puts a NUL behind every word of the tree at the end. A pointer is the
part of the string that is left from it. The functions take fuel for their calls and their loops, and
are `stuck` without it.
-/
import Mathlib.Data.List.Basic
import Xv6.Fs.Disk

namespace Xv6.Shell

open Fs (O_RDONLY O_WRONLY O_CREATE)

/-! ## Characters and pointers -/

/-- `" \t\r\n\v"`. -/
def whitespace : List UInt8 := [32, 9, 13, 10, 11]

/-- `"<|>&;()"`. -/
def symbols : List UInt8 := [60, 124, 62, 38, 59, 40, 41]

def MAXARGS : Nat := 10

def strchr (s : List UInt8) (c : UInt8) : Bool := s.contains c

/-- A pointer into the string: what stands from there to the NUL. -/
abbrev Ptr := List UInt8

/-- `*s`, the NUL at the end included. -/
def Ptr.deref : Ptr → UInt8
  | [] => 0
  | c :: _ => c

/-- `while(s < es && strchr(whitespace, *s)) s++`. -/
def skip (s : Ptr) : Ptr := s.dropWhile (strchr whitespace)

/-- What the loop of `gettoken` takes into a word. -/
def isWord (c : UInt8) : Bool := !strchr whitespace c && !strchr symbols c

/-! ## Tokens -/

inductive Sym
  | lt
  | bar
  | gt
  | append
  | amp
  | semi
  | lpar
  | rpar
  deriving DecidableEq, Repr

/-- What `gettoken` returns: 0, a symbol (`'+'` for `>>`), or `'a'`. -/
inductive Tok
  | nul
  | sym (k : Sym)
  | word
  deriving DecidableEq, Repr

/-- The symbol labels of the switch. -/
def caseOf (c : UInt8) : Option Sym :=
  if c = 124 then some .bar
  else if c = 40 then some .lpar
  else if c = 41 then some .rpar
  else if c = 59 then some .semi
  else if c = 38 then some .amp
  else if c = 60 then some .lt
  else if c = 62 then some .gt
  else none

/-- The switch of `gettoken`: the value it returns, and where the token ends. -/
def scan : Ptr → Tok × Ptr
  | [] => (.nul, [])
  | c :: s =>
    match caseOf c with
    | some .gt => if Ptr.deref s = 62 then (.sym .append, s.tail) else (.sym .gt, s)
    | some k => (.sym k, s)
    | none => (.word, (c :: s).dropWhile isWord)

/-- A counted string: where it starts and where it ends. -/
structure Str where
  q : Ptr
  eq : Ptr
  deriving DecidableEq, Repr

structure Got where
  tok : Tok
  str : Str
  ps : Ptr
  deriving DecidableEq, Repr

def gettoken (ps : Ptr) : Got :=
  let q := skip ps
  let r := scan q
  ⟨r.1, ⟨q, r.2⟩, skip r.2⟩

def peek (ps : Ptr) (toks : List UInt8) : Ptr × Bool :=
  let s := skip ps
  (s, Ptr.deref s != 0 && strchr toks (Ptr.deref s))

/-! ## Commands -/

/-- What a `redircmd` has besides its command. -/
structure Redir (W : Type) where
  file : W
  mode : UInt32
  fd : Nat
  deriving DecidableEq, Repr

/-- A command over words of type `W`: counted strings in the parser, strings in the grammar. -/
inductive Cmd (W : Type)
  | exec (argv : List W)
  | redir (cmd : Cmd W) (r : Redir W)
  | pipe (left right : Cmd W)
  | list (left right : Cmd W)
  | back (cmd : Cmd W)
  deriving DecidableEq, Repr

/-- Each redirection stands around the command with those before it. -/
def Cmd.redirs {W : Type} (c : Cmd W) (rs : List (Redir W)) : Cmd W := rs.foldl .redir c

def Cmd.words {W : Type} : Cmd W → List W
  | .exec argv => argv
  | .redir c r => c.words ++ [r.file]
  | .pipe l r => l.words ++ r.words
  | .list l r => l.words ++ r.words
  | .back c => c.words

/-! ## The parser -/

/-- A call returns, or reports an error and exits; it is stuck where its fuel is too small to tell. -/
inductive Res (α : Type)
  | done (a : α)
  | panic (msg : String)
  | stuck
  deriving DecidableEq, Repr

namespace Res

def bind {α β : Type} : Res α → (α → Res β) → Res β
  | .done a, f => f a
  | .panic msg, _ => .panic msg
  | .stuck, _ => .stuck

instance : Monad Res where
  pure := .done
  bind := bind

end Res

/-- The switch of `parseredirs`. -/
def redircmd (tok : Tok) (w : Str) : List (Redir Str) :=
  match tok with
  | .sym .lt => [⟨w, O_RDONLY, 0⟩]
  | .sym .gt => [⟨w, O_WRONLY ||| O_CREATE, 1⟩]
  | .sym .append => [⟨w, O_WRONLY ||| O_CREATE, 1⟩]
  | _ => []

/-- The redirections `parseredirs` puts around its command. -/
def parseredirs : Nat → Ptr → Res (List (Redir Str) × Ptr)
  | 0, _ => .stuck
  | f + 1, ps =>
    let p := peek ps [60, 62]
    if p.2 then
      let op := gettoken p.1
      let file := gettoken op.ps
      if file.tok ≠ .word then .panic "missing file for redirection"
      else do
        let r ← parseredirs f file.ps
        .done (redircmd op.tok file.str ++ r.1, r.2)
    else .done ([], p.1)

/-- The loop of `parseexec`: the words it adds to `argv`, each with the redirections behind it. -/
def parseargs : Nat → Nat → Ptr → Res (List (Str × List (Redir Str)) × Ptr)
  | 0, _, _ => .stuck
  | f + 1, argc, ps =>
    let p := peek ps [124, 41, 38, 59]
    if p.2 then .done ([], p.1)
    else
      let g := gettoken p.1
      if g.tok = .nul then .done ([], g.ps)
      else if g.tok ≠ .word then .panic "syntax"
      else if MAXARGS ≤ argc + 1 then .panic "too many args"
      else do
        let r ← parseredirs f g.ps
        let more ← parseargs f (argc + 1) r.2
        .done ((g.str, r.1) :: more.1, more.2)

/-- The first loop of `parseline`. -/
def parsebacks : Nat → Cmd Str → Ptr → Res (Cmd Str × Ptr)
  | 0, _, _ => .stuck
  | f + 1, cmd, ps =>
    let p := peek ps [38]
    if p.2 then parsebacks f (.back cmd) (gettoken p.1).ps else .done (cmd, p.1)

mutual

def parseline : Nat → Ptr → Res (Cmd Str × Ptr)
  | 0, _ => .stuck
  | f + 1, ps => do
    let first ← parsepipe f ps
    let r ← parsebacks f first.1 first.2
    let p := peek r.2 [59]
    if p.2 then do
      let more ← parseline f (gettoken p.1).ps
      .done (.list r.1 more.1, more.2)
    else .done (r.1, p.1)

def parsepipe : Nat → Ptr → Res (Cmd Str × Ptr)
  | 0, _ => .stuck
  | f + 1, ps => do
    let r ← parseexec f ps
    let p := peek r.2 [124]
    if p.2 then do
      let more ← parsepipe f (gettoken p.1).ps
      .done (.pipe r.1 more.1, more.2)
    else .done (r.1, p.1)

/-- The words go into the `execcmd` while the redirections are put around it. -/
def parseexec : Nat → Ptr → Res (Cmd Str × Ptr)
  | 0, _ => .stuck
  | f + 1, ps =>
    let p := peek ps [40]
    if p.2 then parseblock f p.1
    else do
      let r ← parseredirs f p.1
      let args ← parseargs f 0 r.2
      .done ((Cmd.exec (args.1.map (·.1))).redirs (r.1 ++ args.1.flatMap (·.2)), args.2)

def parseblock : Nat → Ptr → Res (Cmd Str × Ptr)
  | 0, _ => .stuck
  | f + 1, ps =>
    let p := peek ps [40]
    if p.2 then do
      let r ← parseline f (gettoken p.1).ps
      let p := peek r.2 [41]
      if p.2 then do
        let rs ← parseredirs f (gettoken p.1).ps
        .done (r.1.redirs rs.1, rs.2)
      else .panic "syntax - missing )"
    else .panic "parseblock"

end

/-! ## NUL behind every word -/

/-- `*p = 0`, in the bytes of the string and the NUL behind them. -/
def nulAt (m : List UInt8) (p : Ptr) : List UInt8 := m.set (m.length - 1 - p.length) 0

def nulterminate : Cmd Str → List UInt8 → List UInt8
  | .exec argv, m => argv.foldl (fun m w => nulAt m w.eq) m
  | .redir c r, m => nulAt (nulterminate c m) r.file.eq
  | .pipe l r, m => nulterminate r (nulterminate l m)
  | .list l r, m => nulterminate r (nulterminate l m)
  | .back c, m => nulterminate c m

/-- The string that starts at `p` in the bytes `m`. -/
def strAt (m : List UInt8) (p : Ptr) : List UInt8 :=
  (m.drop (m.length - 1 - p.length)).takeWhile (· ≠ 0)

/-- `s` up to its NUL. -/
def cstring (s : List UInt8) : List UInt8 := s.takeWhile (· ≠ 0)

/-- The tree, and the bytes its pointers go into. -/
def parsecmd (fuel : Nat) (s : List UInt8) : Res (Cmd Str × List UInt8) := do
  let r ← parseline fuel (cstring s)
  let p := peek r.2 []
  if p.1 ≠ [] then .panic "syntax"
  else .done (r.1, nulterminate r.1 (cstring s ++ [0]))

end Xv6.Shell
