import CorpusQuery.Highlighter

/-! The settings of a user: how queries are highlighted, the words of tooltips and hints, and the
corpus that queries are about. -/
namespace CorpusQuery

structure Settings where
  /-- A file that describes the corpus. -/
  corpusPath : Option Text := none
  dialect : Dialect := .default
  wrapLines : Bool := true
  wording : Wording := {}
  /-- The corpus that the settings describe themselves. -/
  corpus : Option Corpus := none
  /-- The corpus that was read from the file; it is no part of the written settings. -/
  corpusRead : Option Corpus := none
  deriving DecidableEq

namespace Settings

def highlighter (s : Settings) : Highlighter where
  startRules := s.dialect.startRules
  wording := s.wording
  wrapLines := s.wrapLines

/-- The names to check queries against, none without a corpus. A corpus described in the settings
comes before one that was read. -/
def vocabulary (s : Settings) : Option Vocabulary := (s.corpus <|> s.corpusRead).map (·.vocabulary)

end Settings

end CorpusQuery
