import QuorumStore.Bytes
import QuorumStore.Names

/-!
# Gossip

Members tell each other which keys a peer is believed to hold. The message
carries the peer's hint in its wire form; only its receiver reads it.
-/

namespace QuorumStore

/-- A hint on its way to the other members. -/
structure HintEvent where
  /-- The member that sent it. -/
  sender : Host
  /-- The digest of the host that the hint is about. -/
  peer : UInt32
  /-- The hint's octets. -/
  payload : Bytes
  deriving DecidableEq, Repr, Inhabited

end QuorumStore
