import Mathlib.Data.List.Basic
import Mathlib.Logic.Function.Basic

/-!
# The shell's parser (`user/sh.c`)

`parsecmd` reads a line into a tree of commands whose strings are slices `[q, eq)` of the line, and `nulterminate` then
writes a NUL at the end of every slice.  A line is the list `src` of its bytes before the NUL, so `es` is `src.length`.
`malloc` is taken to succeed.

The grammar is what the parser is for (`Derives`):

    line ::= pipe {"&"} [";" line]
    pipe ::= exec ["|" pipe]
    exec ::= {redir} {word {redir}}  |  "(" line ")" {redir}
-/

namespace InternetOs.User

/-! ## Characters and tokens -/

/-- `whitespace`. -/
def whitespace : List UInt8 := [' ', '\t', '\r', '\n', '\x0b'].map Char.toUInt8

/-- `symbols`. -/
def symbols : List UInt8 := ['<', '|', '>', '&', ';', '(', ')'].map Char.toUInt8

/-- `MAXARGS`. -/
def maxArgs : Nat := 10

def isSpace (c : UInt8) : Bool := whitespace.contains c

/-- The loop condition of `gettoken` in a word. -/
def isWordChar (c : UInt8) : Bool := !whitespace.contains c && !symbols.contains c

/-- `*s`, the NUL included. -/
def charAt (src : List UInt8) (s : Nat) : UInt8 := src.getD s 0

/-- `while(s < es && strchr(whitespace, *s)) s++`. -/
def skipSpace (src : List UInt8) (s : Nat) : Nat := s + ((src.drop s).takeWhile isSpace).length

/-- The switch of `gettoken` at the token's first character: the result, and where the token ends. -/
def scan (src : List UInt8) (s : Nat) : UInt8 × Nat :=
  let c := charAt src s
  if c = 0 then (0, s)
  else if c ∈ ['|', '(', ')', ';', '&', '<'].map Char.toUInt8 then (c, s + 1)
  else if c = '>'.toUInt8 then
    if charAt src (s + 1) = '>'.toUInt8 then ('+'.toUInt8, s + 2) else (c, s + 1)
  else ('a'.toUInt8, s + ((src.drop s).takeWhile isWordChar).length)

/-- What `gettoken` gives: its result, `*q`, `*eq` and the new `*ps`. -/
structure Token where
  ret : UInt8
  q : Nat
  eq : Nat
  next : Nat

def gettoken (src : List UInt8) (s : Nat) : Token :=
  let q := skipSpace src s
  let tok := scan src q
  ⟨tok.1, q, tok.2, skipSpace src tok.2⟩

/-- `peek`: its result and the new `*ps`. -/
def peek (src : List UInt8) (s : Nat) (toks : List Char) : Bool × Nat :=
  let s := skipSpace src s
  (charAt src s != 0 && (toks.map Char.toUInt8).contains (charAt src s), s)

/-! ## The parser -/

/-- `struct cmd`; a string is given by where it starts and ends. -/
inductive Cmd where
  | exec (argv : List (Nat × Nat))
  | redir (cmd : Cmd) (file efile : Nat) (mode fd : Nat)
  | pipe (left right : Cmd)
  | list (left right : Cmd)
  | back (cmd : Cmd)
deriving DecidableEq

/-- Why the parser does not return; the last one is no panic, but the fuel of the model run out. -/
inductive Stop where
  /-- `"syntax"` -/
  | badLine
  /-- `"missing file for redirection"` -/
  | missingFile
  /-- `"parseblock"` -/
  | parseblock
  /-- `"syntax - missing )"` -/
  | missingParen
  /-- `"too many args"` -/
  | tooManyArgs
  | fuel
deriving DecidableEq

/-- `O_RDONLY`. -/
def oRdonly : Nat := 0x000

/-- `O_WRONLY|O_CREATE`. -/
def oWronlyCreate : Nat := 0x001 ||| 0x200

/-- `cmd->argv[argc] = q; cmd->eargv[argc] = eq`, for the EXEC node `cmd` under the redirections of `ret`. -/
def Cmd.addArg : Cmd → Nat × Nat → Cmd
  | .exec argv, arg => .exec (argv ++ [arg])
  | .redir cmd file efile mode fd, arg => .redir (cmd.addArg arg) file efile mode fd
  | cmd, _ => cmd

/-- The loop of `parseredirs`. -/
def redirLoop (src : List UInt8) : Nat → Cmd → Nat → Except Stop (Cmd × Nat)
  | 0, _, _ => .error .fuel
  | fuel + 1, cmd, s =>
    let p := peek src s ['<', '>']
    if p.1 then
      let tok := gettoken src p.2
      let file := gettoken src tok.next
      if file.ret ≠ 'a'.toUInt8 then .error .missingFile
      else if tok.ret = '<'.toUInt8 then redirLoop src fuel (.redir cmd file.q file.eq oRdonly 0) file.next
      else if tok.ret = '>'.toUInt8 then redirLoop src fuel (.redir cmd file.q file.eq oWronlyCreate 1) file.next
      else if tok.ret = '+'.toUInt8 then redirLoop src fuel (.redir cmd file.q file.eq oWronlyCreate 1) file.next
      else redirLoop src fuel cmd file.next
    else .ok (cmd, p.2)

def parseredirs (src : List UInt8) (cmd : Cmd) (s : Nat) : Except Stop (Cmd × Nat) :=
  redirLoop src (src.length + 1) cmd s

/-- The loop of `parseexec`. -/
def argLoop (src : List UInt8) : Nat → Cmd → Nat → Nat → Except Stop (Cmd × Nat)
  | 0, _, _, _ => .error .fuel
  | fuel + 1, ret, argc, s =>
    let p := peek src s ['|', ')', '&', ';']
    if p.1 then .ok (ret, p.2)
    else
      let tok := gettoken src p.2
      if tok.ret = 0 then .ok (ret, tok.next)
      else if tok.ret ≠ 'a'.toUInt8 then .error .badLine
      else if argc + 1 ≥ maxArgs then .error .tooManyArgs
      else do
        let r ← parseredirs src (ret.addArg (tok.q, tok.eq)) tok.next
        argLoop src fuel r.1 (argc + 1) r.2

/-- The loop of `parseline`. -/
def backLoop (src : List UInt8) : Nat → Cmd → Nat → Except Stop (Cmd × Nat)
  | 0, _, _ => .error .fuel
  | fuel + 1, cmd, s =>
    let p := peek src s ['&']
    if p.1 then backLoop src fuel (.back cmd) (gettoken src p.2).next else .ok (cmd, p.2)

mutual

def parseline (src : List UInt8) : Nat → Nat → Except Stop (Cmd × Nat)
  | 0, _ => .error .fuel
  | fuel + 1, s => do
    let c ← parsepipe src fuel s
    let c ← backLoop src (src.length + 1) c.1 c.2
    let p := peek src c.2 [';']
    if p.1 then
      let r ← parseline src fuel (gettoken src p.2).next
      .ok (.list c.1 r.1, r.2)
    else .ok (c.1, p.2)

def parsepipe (src : List UInt8) : Nat → Nat → Except Stop (Cmd × Nat)
  | 0, _ => .error .fuel
  | fuel + 1, s => do
    let c ← parseexec src fuel s
    let p := peek src c.2 ['|']
    if p.1 then
      let r ← parsepipe src fuel (gettoken src p.2).next
      .ok (.pipe c.1 r.1, r.2)
    else .ok (c.1, p.2)

def parseexec (src : List UInt8) : Nat → Nat → Except Stop (Cmd × Nat)
  | 0, _ => .error .fuel
  | fuel + 1, s =>
    let p := peek src s ['(']
    if p.1 then parseblock src fuel p.2
    else do
      let r ← parseredirs src (.exec []) p.2
      argLoop src (src.length + 1) r.1 0 r.2

def parseblock (src : List UInt8) : Nat → Nat → Except Stop (Cmd × Nat)
  | 0, _ => .error .fuel
  | fuel + 1, s =>
    let p := peek src s ['(']
    if !p.1 then .error .parseblock
    else do
      let c ← parseline src fuel (gettoken src p.2).next
      let p := peek src c.2 [')']
      if !p.1 then .error .missingParen
      else parseredirs src c.1 (gettoken src p.2).next

end

/-- `*p = 0`. -/
def endString (buf : Nat → UInt8) (p : Nat) : Nat → UInt8 := Function.update buf p 0

def nulterminate (buf : Nat → UInt8) : Cmd → Nat → UInt8
  | .exec argv => argv.foldl (fun buf arg => endString buf arg.2) buf
  | .redir cmd _ efile _ _ => endString (nulterminate buf cmd) efile
  | .pipe left right => nulterminate (nulterminate buf left) right
  | .list left right => nulterminate (nulterminate buf left) right
  | .back cmd => nulterminate buf cmd

/-- `parsecmd`: the tree, and the line as `nulterminate` leaves it. -/
def parsecmd (src : List UInt8) : Except Stop (Cmd × (Nat → UInt8)) := do
  let c ← parseline src (4 * src.length + 4) 0
  let p := peek src c.2 []
  if p.2 ≠ src.length then .error .badLine
  else .ok (c.1, nulterminate (charAt src) c.1)

/-! ## The grammar -/

/-- A word as it is typed: not empty, and without whitespace, symbols and NUL. -/
structure Word where
  chars : List UInt8
  ne_nil : chars ≠ []
  plain : ∀ c ∈ chars, c ≠ 0 ∧ isWordChar c = true

/-- A word of one character. -/
def Word.letter (c : UInt8) (h : c ≠ 0 ∧ isWordChar c = true) : Word :=
  ⟨[c], List.cons_ne_nil _ _, fun _ hc => List.mem_singleton.1 hc ▸ h⟩

/-- `<` reads the file into descriptor 0, `>` writes descriptor 1 to it. -/
inductive Mode where
  | read
  | write
deriving DecidableEq

def Mode.flags : Mode → Nat
  | .read => oRdonly
  | .write => oWronlyCreate

def Mode.fd : Mode → Nat
  | .read => 0
  | .write => 1

/-- The commands, with words in place of slices. -/
inductive Tree where
  | exec (args : List Word)
  | redir (cmd : Tree) (mode : Mode) (file : Word)
  | pipe (left right : Tree)
  | list (left right : Tree)
  | back (cmd : Tree)

/-- At most 9 words in every EXEC node. -/
def Tree.ArgsFit : Tree → Prop
  | .exec args => args.length < maxArgs
  | .redir cmd _ _ => cmd.ArgsFit
  | .pipe left right => left.ArgsFit ∧ right.ArgsFit
  | .list left right => left.ArgsFit ∧ right.ArgsFit
  | .back cmd => cmd.ArgsFit

inductive Tok where
  | word (w : Word)
  | lt
  | gt
  | gtgt
  | bar
  | amp
  | semi
  | lparen
  | rparen

def Tok.chars : Tok → List UInt8
  | .word w => w.chars
  | .lt => ['<'.toUInt8]
  | .gt => ['>'.toUInt8]
  | .gtgt => ['>'.toUInt8, '>'.toUInt8]
  | .bar => ['|'.toUInt8]
  | .amp => ['&'.toUInt8]
  | .semi => [';'.toUInt8]
  | .lparen => ['('.toUInt8]
  | .rparen => [')'.toUInt8]

inductive RedirOp where
  | lt
  | gt
  | gtgt

def RedirOp.mode : RedirOp → Mode
  | .lt => .read
  | .gt => .write
  | .gtgt => .write

def RedirOp.tok : RedirOp → Tok
  | .lt => .lt
  | .gt => .gt
  | .gtgt => .gtgt

structure Redir where
  op : RedirOp
  file : Word

def Redir.toks (r : Redir) : List Tok := [r.op.tok, .word r.file]

/-- The redirections apply from the inside out, in the order they stand. -/
def Tree.addRedir (t : Tree) (r : Redir) : Tree := .redir t r.op.mode r.file

/-- What a command without parentheses is made of. -/
inductive Item where
  | word (w : Word)
  | redir (r : Redir)

def Item.toks : Item → List Tok
  | .word w => [.word w]
  | .redir r => r.toks

def Item.word? : Item → Option Word
  | .word w => some w
  | .redir _ => none

def Item.redir? : Item → Option Redir
  | .word _ => none
  | .redir r => some r

/-- The EXEC node of the words, under the redirections. -/
def simpleTree (items : List Item) : Tree :=
  (items.filterMap Item.redir?).foldl Tree.addRedir (.exec (items.filterMap Item.word?))

def Tree.backs : Nat → Tree → Tree
  | 0, t => t
  | k + 1, t => Tree.backs k (.back t)

inductive Level where
  | line
  | pipe
  | exec
deriving DecidableEq

/-- The tokens stand for the tree. -/
inductive Derives : Level → List Tok → Tree → Prop
  | simple (items : List Item) (h : (items.filterMap Item.word?).length < maxArgs) :
      Derives .exec (items.flatMap Item.toks) (simpleTree items)
  | block {ts : List Tok} {t : Tree} (rs : List Redir) (h : Derives .line ts t) :
      Derives .exec (.lparen :: (ts ++ .rparen :: rs.flatMap Redir.toks)) (rs.foldl Tree.addRedir t)
  | single {ts : List Tok} {t : Tree} (h : Derives .exec ts t) : Derives .pipe ts t
  | pipe {ts ts' : List Tok} {l r : Tree} (hl : Derives .exec ts l) (hr : Derives .pipe ts' r) :
      Derives .pipe (ts ++ .bar :: ts') (.pipe l r)
  | backs {ts : List Tok} {t : Tree} (k : Nat) (h : Derives .pipe ts t) :
      Derives .line (ts ++ List.replicate k .amp) (t.backs k)
  | list {ts ts' : List Tok} {l r : Tree} (k : Nat) (hl : Derives .pipe ts l) (hr : Derives .line ts' r) :
      Derives .line (ts ++ (List.replicate k .amp ++ .semi :: ts')) (.list (l.backs k) r)

/-- The text would run into the token and change it: a word goes on, or `>` becomes `>>`. -/
def Tok.RunsInto : Tok → List UInt8 → Prop
  | .word _, text => ∃ c ∈ text.head?, isWordChar c = true
  | .gt, text => text.head? = some '>'.toUInt8
  | _, _ => False

instance (t : Tok) (text : List UInt8) : Decidable (t.RunsInto text) :=
  match t with
  | .word _ => inferInstanceAs (Decidable (∃ c ∈ text.head?, isWordChar c = true))
  | .gt => inferInstanceAs (Decidable (text.head? = some '>'.toUInt8))
  | .lt | .gtgt | .bar | .amp | .semi | .lparen | .rparen => inferInstanceAs (Decidable False)

/-- The text shows the tokens, with whitespace anywhere between them. -/
def Layout : List Tok → List UInt8 → Prop
  | [], text => ∀ c ∈ text, isSpace c = true
  | t :: ts, text => ∃ spaces rest, (∀ c ∈ spaces, isSpace c = true) ∧ text = spaces ++ (t.chars ++ rest) ∧
      ¬ t.RunsInto rest ∧ Layout ts rest

/-! ## Printing -/

/-- Where a command stands, from the loosest place to the tightest. -/
inductive Place where
  | line
  | back
  | pipe
  | exec
deriving DecidableEq

def Mode.tok : Mode → Tok
  | .read => .lt
  | .write => .gt

def parens (needed : Bool) (ts : List Tok) : List Tok := if needed then .lparen :: (ts ++ [.rparen]) else ts

/-- The tokens of the tree, with parentheses only where the grammar needs them. -/
def Tree.print : Tree → Place → List Tok
  | .exec args, _ => args.map .word
  | .redir cmd mode file, _ => cmd.print .exec ++ [mode.tok, .word file]
  | .pipe left right, p => parens (p = .exec) (left.print .exec ++ .bar :: right.print .pipe)
  | .back cmd, p => parens (p = .pipe ∨ p = .exec) (cmd.print .back ++ [.amp])
  | .list left right, p => parens (p ≠ .line) (left.print .back ++ .semi :: right.print .line)

/-! ## What the tree of the parser shows -/

/-- The C string at `q` is `w`. -/
def IsString (buf : Nat → UInt8) (q : Nat) (w : List UInt8) : Prop :=
  (∀ i (h : i < w.length), buf (q + i) = w[i] ∧ w[i] ≠ 0) ∧ buf (q + w.length) = 0

/-- The nodes are those of the tree, and `R` relates every slice to its word. -/
inductive Cmd.Matches (R : Nat × Nat → Word → Prop) : Cmd → Tree → Prop
  | exec {argv : List (Nat × Nat)} {args : List Word} (h : List.Forall₂ R argv args) :
      Matches R (.exec argv) (.exec args)
  | redir {cmd : Cmd} {t : Tree} {file efile : Nat} {w : Word} (mode : Mode) (h : cmd.Matches R t)
      (hw : R (file, efile) w) : Matches R (.redir cmd file efile mode.flags mode.fd) (.redir t mode w)
  | pipe {left right : Cmd} {l r : Tree} (hl : left.Matches R l) (hr : right.Matches R r) :
      Matches R (.pipe left right) (.pipe l r)
  | list {left right : Cmd} {l r : Tree} (hl : left.Matches R l) (hr : right.Matches R r) :
      Matches R (.list left right) (.list l r)
  | back {cmd : Cmd} {t : Tree} (h : cmd.Matches R t) : Matches R (.back cmd) (.back t)

/-- The tree of the parser is the tree, and every `argv[i]` and `file` is a string in `buf`: exactly the word. -/
def Cmd.Shows (buf : Nat → UInt8) : Cmd → Tree → Prop := Matches fun arg w => IsString buf arg.1 w.chars

end InternetOs.User
