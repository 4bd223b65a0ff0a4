import Firewall.Chain

/-!
# Events

What a compiler notes while it reads a line, and the wording of each note.
-/

namespace Firewall

inductive Level where
  | debug
  | warn
deriving DecidableEq, Repr

def Level.name : Level → Text
  | debug => "DEBUG"
  | warn => "WARN"

inductive Event where
  /-- A comment ends the line. -/
  | comment (word : Text)
  /-- A clause begins. -/
  | clause (keyword : Keyword)
  /-- A rule on one chain is to hold on others too. -/
  | replication (chain : Text) (others : List Hook)
  /-- A word is no keyword, so the line makes no rule. -/
  | unknownWord (word : Text)
  /-- An item of a port list is passed over. -/
  | skippedPort (cause : Error)
  /-- A fragment says nothing about an address that the line restricts. -/
  | widened
deriving DecidableEq, Repr

namespace Event

def level : Event → Level
  | comment _ | clause _ | replication _ _ => .debug
  | unknownWord _ | skippedPort _ | widened => .warn

/-- A name in double quotes. -/
def quoted (t : Text) : Text := "\"" ++ t ++ "\""

def message : Event → Text
  | comment w => "Rule word " ++ quoted w ++ " starts a comment, ignoring the rest of the line"
  | clause k =>
    "Handler " ++ quoted k.word ++ " detected, passing remaining rule to handler"
  | replication c hs =>
    "Replicating rule from " ++ c ++ " onto ["
      ++ List.intercalate ", " (hs.map fun h => quoted h.name) ++ "]"
  | unknownWord w => "No known handler for keyword " ++ quoted w ++ ", ignoring rule"
  | skippedPort e => "Invalid port in rule, ignoring it: " ++ e.message
  | widened =>
    "Source and destination addresses do not share a family, "
      ++ "the per-family rules omit the other family's addresses"

end Event

end Firewall
