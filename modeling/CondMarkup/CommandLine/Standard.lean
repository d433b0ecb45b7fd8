import CondMarkup.Code.Program
import CondMarkup.CommandLine.Program
import CondMarkup.Document.Yaml.Meaning
import CondMarkup.Settings.Pattern

/-!
The readers that the program runs with: of source texts, of documents and of patterns.
-/

namespace CondMarkup.CommandLine

/-- The toolkit of the program. -/
def Toolkit.standard : Toolkit where
  parse := GrammarTree.ofText
  readDocument := Yaml.read
  readPatterns := Pattern.readLines

end CondMarkup.CommandLine
