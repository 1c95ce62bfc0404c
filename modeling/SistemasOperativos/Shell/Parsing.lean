import SistemasOperativos.Shell.Types

/-!
# Reading and parsing a command line

The functions of `readline.c`, `utils.c`, `createcmd.c` and `parsing.c`. A line lies in one buffer.
The functions that write terminators into it return the buffer after the call.
-/

namespace SistemasOperativos.Shell

/-! ## Reading a line -/

/-- The loop of `read_line` with the next index, the buffer and the rest of the input. -/
def fillBuffer : ℕ → Block → List UInt8 → Except Fault (Option Block × List UInt8)
  | _, _, [] => .ok (none, [])
  | i, buffer, c :: cs =>
    if buflen ≤ i then .error .outOfBounds
    else if c = endLine then .ok (some (buffer.set i endString), cs)
    else fillBuffer (i + 1) (buffer.set i c) cs

/-- The buffer, or NULL at the end of the input, with the input that is left. -/
def readLine (input : List UInt8) : Except Fault (Option Block × List UInt8) :=
  fillBuffer 0 (List.replicate buflen 0) input

/-! ## Utilities -/

/-- The first loop of `split_line`. -/
def splitterIndex (splitter : UInt8) : Block → Except Fault ℕ
  | [] => .error .outOfBounds
  | c :: cs =>
    if c ≠ splitter ∧ c ≠ endString then (· + 1) <$> splitterIndex splitter cs else .ok 0

/-- The second loop of `split_line`: how many spaces it skips. -/
def skipSpaces : Block → Except Fault ℕ
  | [] => .error .outOfBounds
  | c :: cs => if c = space then (· + 1) <$> skipSpaces cs else .ok 0

def splitLine (memory : Block) (buf : ℕ) (splitter : UInt8) : Except Fault (Block × ℕ) := do
  let i ← splitterIndex splitter (memory.drop buf)
  let memory := memory.set (buf + i) endString
  let spaces ← skipSpaces (memory.drop (buf + i + 1))
  return (memory, buf + i + 1 + spaces)

/-- The index of `c` in a string, where the source returns `-1` for none. -/
def blockContains (buf : Str) (c : UInt8) : Option ℕ := buf.findIdx? (· == c)

/-! ## Creating commands -/

def execCmdCreate (bufCmd : Str) : Except Fault ExecCmd := do
  let scmd ← strcpy buflen bufCmd
  return { type := .exec, scmd, argv := [], eargv := [], outFile := [], inFile := [], errFile := [] }

def backCmdCreate (c : ExecCmd) : Cmd := .back c.scmd c

def pipeCmdCreate (left right : Cmd) : Cmd :=
  match right with
  | .null => left
  | right => .pipe left right

/-! ## Parsing one command -/

variable (globals : Globals)

/-- The next token, given the string from `idx` on, in its block of `ARGSIZE` characters. -/
def getToken (buf : Str) : Except Fault Block :=
  let tok := buf.takeWhile (· ≠ space)
  if tok.length ≤ argsize then .ok (tok ++ List.replicate (argsize - tok.length) endString)
  else .error .outOfBounds

def parseRedirFlow (c : ExecCmd) (arg : Block) : Except Fault (ExecCmd × Bool) := do
  let s ← cString arg
  match blockContains s greaterThan with
  | some 0 => return ({ c with outFile := ← strcpy fnamesize (s.drop 1), type := .redir }, true)
  | some 1 => return ({ c with errFile := ← strcpy fnamesize (s.drop 2), type := .redir }, true)
  | some _ => return ({ c with type := .redir }, true)
  | none =>
    match blockContains s lessThan with
    | some _ => return ({ c with inFile := ← strcpy fnamesize (s.drop 1), type := .redir }, true)
    | none => return (c, false)

def parseEnvironVar (c : ExecCmd) (arg : Block) : Except Fault (ExecCmd × Bool) := do
  let s ← cString arg
  if (blockContains s equals).any (0 < ·) && (blockContains s minus).isNone then
    if maxargs ≤ c.eargv.length then throw .outOfBounds
    return ({ c with eargv := c.eargv ++ [arg] }, true)
  return (c, false)

/-- `realloc(arg, n)`. -/
def reallocArg (arg : Block) (n : ℕ) : Block :=
  (List.range n).map fun i ↦ arg[i]?.getD (globals.heap i)

/-- The value of a variable is copied without its terminator, over what the block held. -/
def expandEnvironVar (arg : Block) : Except Fault Block := do
  if (← arg.read 0) ≠ dollar then return arg
  if (← arg.read 1) = question then
    return ← memcpy arg (decimal globals.status ++ [endString])
  match globals.getenv (← cString (arg.drop 1)) with
  | none => memcpy arg [endString]
  | some [] => memcpy arg [endString]
  | some env =>
    memcpy (if sizeofPointer < env.length then reallocArg globals arg (env.length + 1) else arg) env

/-- One turn of the loop of `parse_exec`, with its token. -/
def parseToken (c : ExecCmd) (tok : Block) : Except Fault ExecCmd := do
  let (c, redirected) ← parseRedirFlow c tok
  if redirected then return c
  let (c, taken) ← parseEnvironVar c tok
  if taken then return c
  let tok ← expandEnvironVar globals tok
  if (← tok.read 0) ≠ endString then
    if maxargs ≤ c.argv.length then throw .outOfBounds
    return { c with argv := c.argv ++ [tok] }
  return c

/-- The loop of `parse_exec` on the string from `idx` on. Every turn moves `idx`, so the length of
the string bounds the turns. -/
def parseTokens : ℕ → Str → ExecCmd → Except Fault ExecCmd
  | _, [], c => .ok c
  | 0, _ :: _, _ => .error .outOfBounds
  | turns + 1, buf, c => do
    let tok ← getToken buf
    let rest := (buf.drop (← cString tok).length).drop 1
    parseTokens turns rest (← parseToken globals c tok)

def parseExec (bufCmd : Str) : Except Fault ExecCmd := do
  let c ← execCmdCreate bufCmd
  let c ← parseTokens globals bufCmd.length bufCmd c
  -- `c->argv[argc] = NULL`
  if maxargs ≤ c.argv.length then throw .outOfBounds
  return c

def parseBack (memory : Block) (bufCmd : ℕ) : Except Fault (Block × Cmd) := do
  match blockContains (memory.drop bufCmd) ampersand with
  | none => throw .outOfBounds
  | some i =>
    let memory := memory.set (bufCmd + i) endString
    let e ← parseExec globals (← cString (memory.drop bufCmd))
    return (memory, backCmdCreate e)

/-- The character at `buf_cmd[idx - 1]` may be the one before `buf_cmd`, and before the buffer. -/
def readBefore (memory : Block) : ℕ → Except Fault UInt8
  | 0 => .error .outOfBounds
  | i + 1 => memory.read i

def parseCmd (memory : Block) (bufCmd : ℕ) : Except Fault (Block × Cmd) := do
  let s ← cString (memory.drop bufCmd)
  if s.length = 0 then return (memory, .null)
  match blockContains s ampersand with
  | some idx =>
    if (← readBefore memory (bufCmd + idx)) ≠ greaterThan then
      parseBack globals memory bufCmd
    else
      return (memory, .exec (← parseExec globals s))
  | none => return (memory, .exec (← parseExec globals s))

/-! ## Parsing a line -/

/-- `parse_line` with at most `calls` nested calls. Each one starts farther in the buffer. -/
def parseLineFrom : ℕ → Block → ℕ → Except Fault (Block × Cmd)
  | 0, _, _ => .error .outOfBounds
  | calls + 1, memory, buf => do
    let (memory, right) ← splitLine memory buf bar
    let (memory, l) ← parseCmd globals memory buf
    match l with
    | .null => do
      let (memory, r) ← parseCmd globals memory right
      return (memory, pipeCmdCreate .null r)
    | l => do
      let (memory, r) ← parseLineFrom calls memory right
      return (memory, pipeCmdCreate l r)

def parseLine (memory : Block) (buf : ℕ) : Except Fault (Block × Cmd) :=
  parseLineFrom globals memory.length memory buf

end SistemasOperativos.Shell
