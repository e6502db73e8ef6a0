import CostCTL.Checker.Basic
import CostCTL.Formula.Semantics
import CostCTL.Kripke.Builder
import CostCTL.Kripke.Dot
import CostCTL.Proofs.Accrual
import CostCTL.Proofs.Agenda
import CostCTL.Proofs.Branch
import CostCTL.Proofs.Chains
import CostCTL.Proofs.Contract
import CostCTL.Proofs.Described
import CostCTL.Proofs.Determinism
import CostCTL.Proofs.Answer
import CostCTL.Proofs.Negation
import CostCTL.Proofs.Finished
import CostCTL.Proofs.Eventuality
import CostCTL.Proofs.Exact
import CostCTL.Proofs.Histories
import CostCTL.Proofs.Interning
import CostCTL.Proofs.Lexing
import CostCTL.Proofs.LowerBound
import CostCTL.Proofs.Orders
import CostCTL.Proofs.Resumption
import CostCTL.Proofs.Reuse
import CostCTL.Proofs.Sessions
import CostCTL.Proofs.Sharing
import CostCTL.Proofs.Shortest
import CostCTL.Proofs.SinglePath
import CostCTL.Proofs.Unfolding
import CostCTL.Proofs.Validated
import CostCTL.Proofs.Verdicts
