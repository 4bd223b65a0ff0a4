import Firewall.Script
import Firewall.Proofs.Restrictions
import Firewall.Proofs.Grammar
import Firewall.Proofs.Strictness
import Firewall.Proofs.Independence
import Firewall.Proofs.Recovery
import Firewall.Proofs.Concatenation
import Firewall.Proofs.Reordering
import Firewall.Proofs.Canonical
import Firewall.Proofs.Product
import Firewall.Proofs.Protocols
import Firewall.Proofs.Chains
import Firewall.Proofs.Continuation
import Firewall.Proofs.PortNumbers
import Firewall.Proofs.Literals
import Firewall.Proofs.PortClauses
import Firewall.Proofs.Scanning
import Firewall.Proofs.ScannedLiterals
import Firewall.Proofs.PortPattern
import Firewall.Proofs.LineEnds
import Firewall.Proofs.Failures
import Firewall.Proofs.NetworkTexts
import Firewall.Proofs.Cursor
import Firewall.Proofs.Rounds
