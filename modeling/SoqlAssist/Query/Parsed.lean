import SoqlAssist.Query.Reader
import SoqlAssist.Token.Lexer

/-!
Parsed queries: a token stream, the syntax tree over it and the syntax errors. Every stream has a
parse.
-/
namespace SoqlAssist

structure ParsedQuery where
  tokens : TokenStream
  tree : Tree
  errors : List SyntaxError
  deriving DecidableEq, Repr

def parseTokens (tokens : TokenStream) : ParsedQuery :=
  let r := (Reader.ofTokens tokens).run [Grammar.Goal.query]
  { tokens, tree := r.builder.toTree, errors := r.errors.toList }

def parse (text : String) : ParsedQuery :=
  parseTokens (tokenize text)

end SoqlAssist
