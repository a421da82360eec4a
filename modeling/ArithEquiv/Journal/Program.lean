import ArithEquiv.Journal.Basic

/-! Programs that write into a journal. A step that fails ends the blocks around it, each of
which still closes, the innermost first. -/
namespace ArithEquiv.Journal

inductive Step where
  | trace (label value : String)
  | line (text : String)
  | title (text : String)
  | rule (width : Int)
  | indent
  | dedent
  | setTracing (on : Bool)
  | fail
  | indented (body : List Step)
  | ruled (body : List Step)
  deriving Repr

inductive Outcome where
  | finished
  | failed
  deriving DecidableEq, Repr

mutual

def run : Step → Journal → Outcome × Journal
  | .trace label value, j => (.finished, j.trace label fun _ => value)
  | .line text, j => (.finished, j.line text)
  | .title text, j => (.finished, j.title text)
  | .rule width, j => (.finished, j.rule width)
  | .indent, j => (.finished, j.indent)
  | .dedent, j => (.finished, j.dedent)
  | .setTracing on, j => (.finished, { j with tracing := on })
  | .fail, j => (.failed, j)
  | .indented body, j =>
      let (outcome, j) := runAll body j.indent
      (outcome, j.dedent)
  | .ruled body, j =>
      let (outcome, j) := runAll body (j.rule ruleWidth)
      (outcome, j.rule ruleWidth)

def runAll : List Step → Journal → Outcome × Journal
  | [], j => (.finished, j)
  | step :: rest, j =>
    match run step j with
    | (.finished, j) => runAll rest j
    | (.failed, j) => (.failed, j)

end

end ArithEquiv.Journal
