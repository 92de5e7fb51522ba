import Ebnf.Proofs.Parsing.Carets
import Ebnf.Proofs.Parsing.Defects
import Ebnf.Proofs.Parsing.Derivation
import Ebnf.Proofs.Parsing.Erasure
import Ebnf.Proofs.Parsing.Extraction
import Ebnf.Proofs.Parsing.FirstError
import Ebnf.Proofs.Parsing.Hierarchy
import Ebnf.Proofs.Parsing.Printing
import Ebnf.Proofs.Parsing.Respelling
import Ebnf.Proofs.Parsing.Trace
import Ebnf.Proofs.Parsing.Truncation
import Ebnf.Proofs.Parsing.VerticalBreaks
import Ebnf.Proofs.Reading.Ensures
import Ebnf.Proofs.Reading.Lexeme
import Ebnf.Proofs.Reading.Production
import Ebnf.Proofs.Reading.Trivia
import Ebnf.Proofs.Session.Placement
import Ebnf.Proofs.Session.Progress
import Ebnf.Proofs.Session.Trivia
import Ebnf.Proofs.Spelling.Basic
import Ebnf.Proofs.Spelling.Suffix
import Ebnf.Reader.Levels
import Ebnf.Report
import Ebnf.Session
import Ebnf.Tree.Equality
