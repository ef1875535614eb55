import CorpusQuery.Parse
import CorpusQuery.SpanTable.Builder

/-! What is worth a line in a log. -/
namespace CorpusQuery

inductive LogRecord where
  | fault (f : TraceFault)
  | refused (start : StartRule) (e : SyntaxError)
  | passed (depth : Nat) (start : StartRule) (consumed size : Nat)
  | outOfRules (bytes : Nat)
  | skipped (t : Text) (left : Nat)
  | noConfig (path : Text)
  deriving DecidableEq

namespace LogRecord

def level : LogRecord → String
  | .fault _ => "WARN"
  | .passed .. | .noConfig _ => "DEBUG"
  | .refused .. | .outOfRules _ | .skipped .. => "TRACE"

def message : LogRecord → String
  | .fault f => f.message
  | .refused start e => s!"{start.name}: {e.message}"
  | .passed depth start consumed size =>
    s!"pass {depth} with {start.name}: consumed {consumed} of {size} bytes"
  | .outOfRules bytes => s!"no candidates left, {bytes} bytes unrecognized"
  | .skipped t left => s!"skipped {Quoted.text t}, retrying {left} bytes"
  | .noConfig path => s!"no config file at {String.ofList path}"

def line (r : LogRecord) : String := s!"{r.level} {r.message}"

end LogRecord

end CorpusQuery
