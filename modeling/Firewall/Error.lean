import Firewall.Keyword
import Firewall.Text.Numeral

/-!
# Errors

What can go wrong, by cause, and the wording of each cause.
-/

namespace Firewall

/-- What is wrong with the words of a line. -/
inductive Fault where
  /-- The line ends before the argument of a keyword. -/
  | missingArgument (keyword : Keyword)
  /-- A port list is not made of numbers and ranges of numbers. -/
  | badPortList (list : Text)
  /-- A strict reader meets a number that is no port. -/
  | badPort (piece : Text)
  /-- No number of a port list is a port. -/
  | noPort
  /-- No name of a chain list is a built-in chain. -/
  | noChain
deriving DecidableEq, Repr

namespace Fault

/-- The keyword that a complaint about a missing argument names: a port list is the argument of
`port` on either side. -/
def owner : Keyword → Keyword
  | .ports _ => .ports .destination
  | k => k

def message : Fault → Text
  | missingArgument k => "no argument passed to '" ++ (owner k).word ++ "'"
  | badPortList l => "error while parsing argument to PORT rule: '" ++ l ++ "'"
  | badPort p => "(strict mode) an invalid port '" ++ p ++ "' was present in your rule"
  | noPort => "no valid ports passed to PORT rule"
  | noChain => "no known chain passed to 'chain'"

end Fault

/-- Everything that can go wrong. Line numbers begin with one. Nothing goes wrong where the characters of a
line are put together to words: a text is a list of characters, and any such list is a text. -/
inductive Error where
  /-- The words of a line make no rule. -/
  | malformed (fault : Fault)
  /-- A text is no port number. -/
  | invalidPort (text : Text)
  /-- A text is no network. -/
  | invalidAddress (text : Text)
  /-- There is no table of that name. -/
  | unsupportedTable (name : Text)
  /-- A line holds a word that is no keyword. -/
  | unrecognized (line : Nat) (text : Text)
  /-- A line fails. -/
  | atLine (line : Nat) (cause : Error)
deriving DecidableEq, Repr

def Error.message : Error → Text
  | malformed f => "syntax error: " ++ f.message
  | invalidPort t => "invalid port '" ++ t ++ "'"
  | invalidAddress t => "invalid address '" ++ t ++ "'"
  | unsupportedTable t => "table '" ++ t ++ "' is not supported by iptables"
  | unrecognized n t =>
    "line " ++ Numeral.text 10 n ++ ": no known keyword in rule '" ++ t ++ "'"
  | atLine n e => "line " ++ Numeral.text 10 n ++ ": " ++ e.message

end Firewall
