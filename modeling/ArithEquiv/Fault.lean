import ArithEquiv.Expr.Equality
import ArithEquiv.Expr.Render
import ArithEquiv.Journal.Basic
import ArithEquiv.Text.Quoted

/-! Everything that can go wrong, by cause. `Fault.message` words each cause. -/
namespace ArithEquiv

/-- Text that is no expression. Positions count characters from the start of the text. -/
inductive ParseFault where
  | unexpected (token : String) (position : Int)
  | unmatched (position : Int)
  | exhausted (position : Int)
  | tooDeep (position : Int) (limit : Nat)
  deriving DecidableEq, Repr

inductive Divergence where
  | treeTooLarge (size : Nat) (limit : Int)
  | unstable (iterations : Nat)
  | constantTooLarge (value : Int)
  | productTooLarge (size : Nat) (limit : Int)
  deriving DecidableEq, Repr

inductive ShapeFault where
  | notAssociative (op : BinOp)
  | tooFewOperands (op : AssocOp) (count : Nat)
  | flatWhereBinary (call : Expr)
  deriving DecidableEq, Repr

inductive TokenMisuse where
  | notNumeral (text : String)
  | notOpening (text : String)
  deriving DecidableEq, Repr

inductive Fault where
  | parse (cause : ParseFault)
  | diverged (pass : String) (cause : Divergence)
  /-- A number in the notice of a fault has too many digits to be written. -/
  | unwritten
  | shape (cause : ShapeFault)
  | misuse (cause : TokenMisuse)
  | numeral (cause : Numeral.Refusal)
  | overflow (cause : Overflow)
  | childCount (expected got : Nat)
  | unknownStrategy (name : String)
  deriving DecidableEq, Repr

instance decideOutcome {α β : Type} [DecidableEq α] [DecidableEq β] : DecidableEq (Except α β)
  | .ok a, .ok b => decidable_of_iff (a = b) ⟨congrArg Except.ok, Except.ok.inj⟩
  | .error a, .error b => decidable_of_iff (a = b) ⟨congrArg Except.error, Except.error.inj⟩
  | .ok _, .error _ => isFalse nofun
  | .error _, .ok _ => isFalse nofun

def ParseFault.message : ParseFault → String
  | .unexpected token position =>
      s!"unexpected token '{token}' at position {Numeral.write position}"
  | .unmatched position => s!"unmatched parenthesis at position {Numeral.write position}"
  | .exhausted _ => "cannot advance past the end of input"
  | .tooDeep position limit =>
      s!"parentheses nested deeper than {limit} levels at position {Numeral.write position}"

def ParseFault.position : ParseFault → Int
  | .unexpected _ position => position
  | .unmatched position => position
  | .exhausted position => position
  | .tooDeep position _ => position

def Divergence.message : Divergence → String
  | .treeTooLarge size limit => s!"tree grew to {size} nodes (limit {Numeral.write limit})"
  | .unstable iterations => s!"no fixed point after {iterations} iterations"
  | .constantTooLarge value => s!"constant {Numeral.write value} is too large to expand"
  | .productTooLarge size limit =>
      s!"product would grow to {size} nodes (limit {Numeral.write limit})"

def Divergence.numbers : Divergence → List Int
  | .treeTooLarge size limit => [size, limit]
  | .unstable iterations => [iterations]
  | .constantTooLarge value => [value]
  | .productTooLarge size limit => [size, limit]

def Divergence.writable (cause : Divergence) : Bool := cause.numbers.all Numeral.fits

/-- What comes of giving a pass up: the notice is written first, if it can be. -/
def Fault.givenUp (pass : String) (cause : Divergence) : Fault :=
  if cause.writable then .diverged pass cause else .unwritten

theorem Fault.givenUpDiverged {pass name : String} {cause other : Divergence}
    (given : givenUp pass cause = .diverged name other) : cause = other := by
  unfold givenUp at given
  split at given <;> cases given
  rfl

def ParseFault.numbers : ParseFault → List Int
  | .unexpected _ position => [position]
  | .unmatched position => [position]
  | .exhausted _ => []
  | .tooDeep position limit => [position, limit]

/-- What is raised for a fault found among tokens: its notice is written first, if it can be. Tokens that
were not scanned from a source may stand at a position with too many digits. -/
def Fault.raised : Fault → Fault
  | .parse cause => if cause.numbers.all Numeral.fits then .parse cause else .unwritten
  | fault => fault

def ShapeFault.message : ShapeFault → String
  | .notAssociative op => s!"cannot flatten non-associative operator '{op.symbol}'"
  | .tooFewOperands op count =>
      s!"flat '{op.symbol}' call needs at least two arguments, got {count}"
  | .flatWhereBinary call =>
      s!"CleanZerosOnes expects unflattened input, got flat call '{call.render}'"

def TokenMisuse.message : TokenMisuse → String
  | .notNumeral text => s!"{text} is not a constant"
  | .notOpening text => s!"expected '(' but found '{text}'"

def Fault.message : Fault → String
  | .parse cause => cause.message
  | .diverged pass cause => s!"{pass}: {cause.message}"
  | .unwritten => s!"more than {Numeral.maxDigits} digits"
  | .shape cause => cause.message
  | .misuse cause => cause.message
  | .numeral .notNumeral => "not a decimal numeral"
  | .numeral .tooLong => s!"more than {Numeral.maxDigits} digits"
  | .overflow cause => cause.message
  | .childCount expected got => s!"expected {expected} children, got {got}"
  | .unknownStrategy name => s!"unknown constant strategy: {Quoted.write name}"

end ArithEquiv
