import Firewall.Clause.Reader
import Firewall.Clause.Step
import Firewall.Outcome
import Firewall.Ruleset
import Firewall.Text.Blank
import Firewall.Text.Upper

/-!
# Compiling a line

A line is compiled from its words: they are read as clauses, each clause adds to the rule of the
line, and the rule gives the ruleset. A line with an unknown word has no ruleset, which is not an
error; a blank line and a comment have an empty one. `compileLine_congr` says that nothing but the
words counts.
-/

namespace Firewall

/-- What a user may set. -/
structure Settings where
  table : Text := "filter"
  chain : Text := "INPUT"
  strict : Bool := false
deriving DecidableEq, Repr

/-- The settings with a chain, whose name is put in upper case. -/
def Settings.withChain (s : Settings) (c : Text) : Settings := { s with chain := c.upper }

/-- What lines are compiled for: a table, the chain of a rule that names none, and whether to refuse
what is out of range instead of mending it. -/
structure Compiler where
  table : Table
  chain : Text
  strict : Bool
deriving DecidableEq, Repr

/-- The compiler of the settings, if there is such a table. -/
def Settings.compiler (s : Settings) : Except Error Compiler := do
  return ⟨← Table.read s.table, s.chain, s.strict⟩

/-- What is noted when a step is added to a rule. -/
def Step.events (t : Table) (r : Rule) : Step → List Event
  | replicate => [.replication r.chain (otherHooks t r)]
  | _ => []

namespace Compiler

def addClause (c : Compiler) (r : Rule) (cl : Clause) : Outcome Rule := do
  Outcome.note [.clause cl.keyword]
  Outcome.note ((cl.skipped c.strict).map .skippedPort)
  let s ← Outcome.ofExcept (cl.step c.strict)
  Outcome.note (s.events c.table r)
  return s.apply c.table r

def rule (c : Compiler) (cs : List Clause) : Outcome Rule :=
  cs.foldlM c.addClause (Rule.onChain c.chain)

/-- The ruleset of a line whose clauses made the rule `r`. -/
def finish (r : Rule) : Outcome Ruleset := do
  Outcome.note (if r.widens then [.widened] else [])
  return r.ruleset

/-- Ends a line whose clauses made the rule `r`. -/
def conclude (r : Rule) : Ending → Outcome (Option Ruleset)
  | .complete => some <$> finish r
  | .comment w => do
    Outcome.note [.comment w]
    some <$> finish r
  | .unknown w => do
    Outcome.note [.unknownWord w]
    return none
  | .missing k => do
    Outcome.note [.clause k]
    Outcome.ofExcept (.error (.malformed (.missingArgument k)))

def compileWords (c : Compiler) (ws : List Text) : Outcome (Option Ruleset) := do
  let r ← c.rule (Clause.sequence ws).1
  conclude r (Clause.sequence ws).2

/-- Compiles a line. There is no ruleset if a word is no keyword. -/
def compileLine (c : Compiler) (line : Text) : Outcome (Option Ruleset) :=
  match line.words with
  | [] => pure (some {})
  | w :: ws => if isComment w then pure (some {}) else c.compileWords (w :: ws)

theorem compileLine_congr (c : Compiler) {l m : Text} (h : l.words = m.words) :
    c.compileLine l = c.compileLine m := by
  simp only [compileLine, h]

end Compiler

end Firewall
