import Firewall.Rule.Fragment

/-!
# Rulesets

The fragments of a line or a text, for the packet filters of the two families. A rule without
networks holds for both families alike. A rule with networks holds for the families of its networks
only, and each filter gets the networks it understands; `Rule.widens` tells when a fragment is left
without any network on a side that the rule restricts.
-/

namespace Firewall

/-- The fragments for the two packet filters. -/
structure Ruleset where
  v4 : List Text := []
  v6 : List Text := []
deriving DecidableEq, Repr

namespace Ruleset

/-- Whether neither filter gets a fragment. -/
def isEmpty (r : Ruleset) : Bool := r.v4.isEmpty && r.v6.isEmpty

def ofFamily (r : Ruleset) : Family → List Text
  | .v4 => r.v4
  | .v6 => r.v6

def append (r s : Ruleset) : Ruleset := ⟨r.v4 ++ s.v4, r.v6 ++ s.v6⟩

instance : Append Ruleset := ⟨append⟩

theorem append_def (r s : Ruleset) : r ++ s = ⟨r.v4 ++ s.v4, r.v6 ++ s.v6⟩ := rfl

@[simp] theorem empty_append (r : Ruleset) : ({} : Ruleset) ++ r = r := by simp [append_def]

@[simp] theorem append_empty (r : Ruleset) : r ++ ({} : Ruleset) = r := by simp [append_def]

theorem append_assoc (r s t : Ruleset) : r ++ s ++ t = r ++ (s ++ t) := by simp [append_def]

end Ruleset

namespace Rule

/-- The fragments of the rule for the filter of a family. -/
def fragmentsFor (r : Rule) (f : Family) : List Fragment :=
  if r.uses f then r.fragments (some f)
  else if r.uses f.other then []
  else r.fragments none

def ruleset (r : Rule) : Ruleset :=
  ⟨(r.fragmentsFor .v4).map Fragment.text, (r.fragmentsFor .v6).map Fragment.text⟩

/-- Whether one end of the rule has networks, but none of the family. -/
def lacks (r : Rule) (f : Family) (s : Side) : Bool :=
  let ns := (r.endpoint s).networks
  ns.ofFamily f = [] && ns.ofFamily f.other ≠ []

/-- Whether some fragment says nothing about networks at an end where the rule has some. -/
def widens (r : Rule) : Bool :=
  [Family.v4, Family.v6].any fun f => r.uses f && (r.lacks f .source || r.lacks f .destination)

end Rule

end Firewall
