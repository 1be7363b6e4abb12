import Xv6Paging.Shell.Tokens

/-!
# The shell parser

The recursive functions of the shell that build the tree of a command, as programs over the cursor.
The number of calls is bounded by `n`; `parsecmd` starts with enough for every line.
-/

namespace Xv6Paging

open StateHalt

namespace Shell

abbrev maxargs : Nat := 10

/-- The modes of `open`. -/
abbrev oRdonly : Nat := 0
abbrev oWronly : Nat := 1
abbrev oCreate : Nat := 0x200
abbrev oTrunc : Nat := 0x400

/-- A command.  The arguments and the file of a redirection point into the line, to their first
character and behind their last one. -/
inductive Cmd
  | exec (argv : List (Nat × Nat))
  | redir (cmd : Cmd) (file efile mode fd : Nat)
  | pipe (left right : Cmd)
  | list (left right : Cmd)
  | back (cmd : Cmd)
  deriving DecidableEq, Repr

/-- How the parser ends without a tree: `panic` with its message, after the leftovers were printed
or not; `calls` if the bound of the model was reached. -/
inductive Stop
  | panic (msg : String)
  | leftovers (s : Nat) (msg : String)
  | calls
  deriving DecidableEq, Repr

/-- Programs over the cursor `*ps`. -/
abbrev SM := EStateM Stop Nat

/-- The assignments to `cmd->argv[argc]` and `cmd->eargv[argc]`: `cmd` is the innermost command of
the redirections around it. -/
def Cmd.addArg (q eq : Nat) : Cmd → Cmd
  | exec argv => exec (argv ++ [(q, eq)])
  | redir cmd file efile mode fd => redir (cmd.addArg q eq) file efile mode fd
  | cmd => cmd

/-- The `switch` of `parseredirs`. -/
def redirect (cmd : Cmd) (tok : Tok) (q eq : Nat) : Cmd :=
  match tok with
  | .sym .less => .redir cmd q eq oRdonly 0
  | .sym .greater => .redir cmd q eq (oWronly ||| oCreate ||| oTrunc) 1
  | .sym .append => .redir cmd q eq (oWronly ||| oCreate) 1
  | _ => cmd

section Parser

variable (l : Line)

def parseredirs : Nat → Cmd → SM Cmd
  | 0, _ => throw .calls
  | n + 1, cmd => do
    if ← l.peek [ '<'.toUInt8, '>'.toUInt8] then
      let (tok, _, _) ← l.gettoken
      let (file, q, eq) ← l.gettoken
      if file ≠ .word then throw (.panic "missing file for redirection")
      else parseredirs n (redirect cmd tok q eq)
    else pure cmd

/-- The loop of `parseline`. -/
def backLoop : Nat → Cmd → SM Cmd
  | 0, _ => throw .calls
  | n + 1, cmd => do
    if ← l.peek [ '&'.toUInt8] then
      let _ ← l.gettoken
      backLoop n (.back cmd)
    else pure cmd

/-- The loop of `parseexec`. -/
def argLoop : Nat → Nat → Cmd → SM Cmd
  | 0, _, _ => throw .calls
  | n + 1, argc, ret => do
    if ← l.peek [ '|'.toUInt8, ')'.toUInt8, '&'.toUInt8, ';'.toUInt8] then pure ret
    else
      let (tok, q, eq) ← l.gettoken
      if tok = .eof then pure ret
      else if tok ≠ .word then throw (.panic "syntax")
      else if maxargs ≤ argc + 1 then throw (.panic "too many args")
      else
        let ret ← parseredirs l n (ret.addArg q eq)
        argLoop n (argc + 1) ret

mutual

def parseline : Nat → SM Cmd
  | 0 => throw .calls
  | n + 1 => do
    let cmd ← parsepipe n
    let cmd ← backLoop l n cmd
    if ← l.peek [ ';'.toUInt8] then
      let _ ← l.gettoken
      let right ← parseline n
      pure (.list cmd right)
    else pure cmd

def parsepipe : Nat → SM Cmd
  | 0 => throw .calls
  | n + 1 => do
    let cmd ← parseexec n
    if ← l.peek [ '|'.toUInt8] then
      let _ ← l.gettoken
      let right ← parsepipe n
      pure (.pipe cmd right)
    else pure cmd

def parseexec : Nat → SM Cmd
  | 0 => throw .calls
  | n + 1 => do
    if ← l.peek [ '('.toUInt8] then parseblock n
    else
      let ret ← parseredirs l n (.exec [])
      argLoop l n 0 ret

def parseblock : Nat → SM Cmd
  | 0 => throw .calls
  | n + 1 => do
    if ← l.peek [ '('.toUInt8] then
      let _ ← l.gettoken
      let cmd ← parseline n
      if ← l.peek [ ')'.toUInt8] then
        let _ ← l.gettoken
        parseredirs l n cmd
      else throw (.panic "syntax - missing )")
    else throw (.panic "parseblock")

end

end Parser

/-- `nulterminate`: a zero behind every argument and file. -/
def nulterminate : Cmd → List UInt8 → List UInt8
  | .exec argv, buf => argv.foldl (fun buf arg => buf.set arg.2 0) buf
  | .redir cmd _ efile _ _, buf => (nulterminate cmd buf).set efile 0
  | .pipe left right, buf => nulterminate right (nulterminate left buf)
  | .list left right, buf => nulterminate right (nulterminate left buf)
  | .back cmd, buf => nulterminate cmd buf

/-- `parsecmd` up to the call of `nulterminate`. -/
def parsecmdTree (l : Line) : SM Cmd := do
  let cmd ← parseline l (4 * l.es + 4)
  let _ ← l.peek []
  let s ← get
  if s ≠ l.es then throw (.leftovers s "syntax")
  else pure cmd

/-- `parsecmd`: the tree, and the line as it is left. -/
def parsecmd (l : Line) : Except Stop (Cmd × List UInt8) :=
  match parsecmdTree l 0 with
  | .ok cmd _ => .ok (cmd, nulterminate cmd (l.chars ++ [0]))
  | .error e _ => .error e

end Shell

end Xv6Paging
