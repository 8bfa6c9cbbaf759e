import UniversalSetup.Base.Path

/-!
# Transaction specifications

`TransactionSpec` names a transaction, the plan it executes and the four roots it may touch. It is
supplied by the caller at creation and again at every inspection and resumption.
-/

namespace Usk.Transaction

/-- `CommitAuthorityRequirement`. -/
inductive CommitAuthorityRequirement where
  | legacyObserved
  | stagedChildBoundV1
deriving DecidableEq

/-- `TransactionSpec`. -/
structure TransactionSpec where
  transactionId : Bytes
  planId : Bytes
  planDigest : Bytes
  operation : Bytes
  stagingParent : Path
  targetRoot : Path
  stateRoot : Path
  auditRoot : Path
  requiredCommitAuthority : CommitAuthorityRequirement := .legacyObserved
deriving DecidableEq

end Usk.Transaction
