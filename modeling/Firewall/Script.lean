import Firewall.Compiler
import Firewall.Text.Line

/-!
# Compiling a text

A text is compiled line by line. The first line that fails or holds an unknown word ends it, with
an error that tells the number of the line. Main statement: `compileLines_append`, the lines of a
text may be compiled in two parts.
-/

namespace Firewall.Compiler

/-- Compiles the line with number `n`; a line without a ruleset is an error. -/
def compileNumbered (c : Compiler) (n : Nat) (line : Text) : Outcome Ruleset := do
  match ← (c.compileLine line).mapError (.atLine n) with
  | some r => return r
  | none => Outcome.ofExcept (.error (.unrecognized n line.strip))

/-- Compiles lines, the first of which has number `n`. -/
def compileLines (c : Compiler) (n : Nat) : List Text → Outcome Ruleset
  | [] => pure {}
  | l :: ls => do
    let r ← c.compileNumbered n l
    (r ++ ·) <$> compileLines c (n + 1) ls

def compile (c : Compiler) (t : Text) : Outcome Ruleset := c.compileLines 1 t.lines

theorem compileLines_append (c : Compiler) (n : Nat) (ls ms : List Text) :
    c.compileLines n (ls ++ ms) = do
      let r ← c.compileLines n ls
      let s ← c.compileLines (n + ls.length) ms
      return r ++ s := by
  induction ls generalizing n with
  | nil =>
    have h : HAppend.hAppend ({} : Ruleset) = id := funext Ruleset.empty_append
    simp [compileLines, h]
  | cons l ls ih =>
    have hn : n + 1 + ls.length = n + (ls.length + 1) := by omega
    have h (r s : Ruleset) : HAppend.hAppend (r ++ s) = fun t => r ++ (s ++ t) :=
      funext (Ruleset.append_assoc r s)
    simp [compileLines, ih, hn, h]

end Firewall.Compiler
