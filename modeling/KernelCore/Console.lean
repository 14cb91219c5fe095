/-!
# Console

Everything the kernel says goes to the serial port. Records below the filter's importance are
dropped; direct prints are not filtered.
-/

namespace KernelCore

inductive Level
  | error | warn | info | debug | trace
deriving DecidableEq, Repr

namespace Level

/-- Rank by importance, the most important first. -/
def rank : Level → Nat
  | .error => 1 | .warn => 2 | .info => 3 | .debug => 4 | .trace => 5

def name : Level → String
  | .error => "ERROR" | .warn => "WARN" | .info => "INFO" | .debug => "DEBUG" | .trace => "TRACE"

/-- The level that kernels are built with. -/
def built : Level := .debug

end Level

structure Record where
  level : Level
  text : String
deriving DecidableEq, Repr

namespace Record

def line (r : Record) : String := "[" ++ r.level.name ++ "] " ++ r.text ++ "\n"

end Record

/-- What the port sends for one character: a backspace or delete is sent as an erasing sequence. -/
def Console.sent (c : Char) : List Char :=
  if c = '\x08' ∨ c = '\x7f' then ['\x08', ' ', '\x08'] else [c]

structure Console where
  /-- The least important level that is shown; `none` shows no record. -/
  filter : Option Level
  /-- What the port has sent. -/
  output : String
deriving DecidableEq, Repr

namespace Console

def enabled (c : Console) (level : Level) : Bool :=
  match c.filter with
  | none => false
  | some least => level.rank ≤ least.rank

def print (c : Console) (text : String) : Console :=
  { c with output := c.output ++ String.ofList (text.toList.flatMap sent) }

def log (c : Console) (r : Record) : Console :=
  if c.enabled r.level then c.print r.line else c

@[simp] theorem filter_print (c : Console) (text : String) : (c.print text).filter = c.filter := rfl

@[simp] theorem filter_log (c : Console) (r : Record) : (c.log r).filter = c.filter := by
  unfold log; split <;> rfl

end Console

end KernelCore
